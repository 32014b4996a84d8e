import Aret.Indexer.IndexIntegrity

/-! Which rows a run of the indexer goes over, and what it makes of them. The
cursor alone ends the loop, so the second argument of `main` has no effect. -/
namespace Aret.Indexer
open Lib Tera

def Event.rowKey : Event → Key
  | .row rowKey => rowKey
  | .tagWrite rowKey _ _ _ _ => rowKey
  | .webWrite rowKey _ => rowKey

section
variable {σ τ : Type} (env : Env σ τ)

variable {env}

theorem rowKey_of_mem_rowEvents {ticks : Nat} {row : Key × Record} {e : Event} (h : e ∈ rowEvents env ticks row) :
    e.rowKey = row.1 := by
  cases e with
  | row rowKey => exact mem_rowEvents_row h
  | tagWrite rowKey kw title ts nt => exact (mem_rowEvents_tagWrite h).1
  | webWrite rowKey record => exact (mem_rowEvents_webWrite.mp h).1

theorem rowKey_mem_runLog_iff {ticks : Nat} {rows : List (Key × Record)} {k : Key} :
    (∃ e ∈ runLog env ticks rows, e.rowKey = k) ↔ k ∈ rows.map Prod.fst := by
  constructor
  · rintro ⟨e,he,rfl⟩
    obtain ⟨row,hrow,t,he⟩ := mem_runLog he
    exact List.mem_map.mpr ⟨row,hrow,(rowKey_of_mem_rowEvents he).symm⟩
  · intro hk
    obtain ⟨row,hrow,rfl⟩ := List.mem_map.mp hk
    obtain ⟨t,ht⟩ := rowEvents_subset env ticks hrow
    exact ⟨.row row.1,ht List.mem_cons_self,rfl⟩

theorem find?_replay_between (init : Contents) (lo hi : Key) (ticks : Nat) (k : Key) :
    (init.replay (runLog env ticks (init.web.between lo hi).entries)).web.find? k =
      (init.web.find? k).map (fun record => if lo ≤ k ∧ k < hi then indexedRecord env (k,record) else record) := by
  rw [find?_replay_web (fun row hrow => OrdMap.find?_eq_some_iff.mpr (OrdMap.mem_between.mp hrow).1)]
  apply Option.map_congr
  intro record hk
  have hmem : (k,record) ∈ init.web.entries := OrdMap.find?_eq_some_iff.mp hk
  simp only [OrdMap.mem_between,hmem,true_and]

theorem mainLoop_mono {endKey : Key} {fuel fuel' : Nat} (hle : fuel ≤ fuel') {st final : State σ τ}
    (h : mainLoop env endKey fuel st = some final) : mainLoop env endKey fuel' st = some final := by
  induction fuel generalizing fuel' st with
  | zero => exact nomatch h
  | succ fuel ih =>
    obtain ⟨n,rfl⟩ : ∃ n, fuel' = n + 1 := ⟨fuel' - 1,by omega⟩
    simp only [mainLoop] at h ⊢
    split_ifs at h ⊢
    · exact h
    · exact ih (by omega) h
    · exact h

variable (env) {webRows : σ → TableSlice} {tagRows : τ → TableSlice}

/-- A run ends in one state, however much fuel it is given, with the events of
the rows of its range and what they leave in the tables. -/
theorem main_ends (hw : Stores env.table webRows) (ht : Stores env.tagTable tagRows)
    (hscan : ∀ s, ScanRuns (env.table.scan s) (webRows s)) (startKey endKey : Key) (web : σ) (tag : τ) :
    ∃ final, (∀ fuel, ((webRows web).between startKey (bytes "~")).size < fuel →
        main env startKey endKey fuel web tag = some final) ∧
      final.log = runLog env 0 ((webRows web).between startKey (bytes "~")).entries ∧
      ∀ k, (webRows final.web).find? k = ((webRows web).find? k).map (fun record =>
        if startKey ≤ k ∧ k < bytes "~" then indexedRecord env (k,record) else record) := by
  obtain ⟨final,hfinal,hlog,hcontents⟩ := main_advances hw ht hscan startKey endKey web tag (Nat.lt_succ_self _)
  refine ⟨final,fun fuel hfuel => mainLoop_mono hfuel hfinal,hlog,fun k => ?_⟩
  have hweb : webRows final.web = ((Contents.mk (webRows web) (tagRows tag)).replay final.log).web :=
    congrArg Contents.web hcontents
  rw [hweb,hlog]
  exact find?_replay_between ⟨webRows web,tagRows tag⟩ startKey (bytes "~") 0 k

/-- A run touches the rows from `startKey` to `endKey` and no others exactly when
the table has no row behind `endKey` below `"~"`. -/
theorem end_key_respected_iff (hw : Stores env.table webRows) (ht : Stores env.tagTable tagRows)
    (hscan : ∀ s, ScanRuns (env.table.scan s) (webRows s)) (startKey endKey : Key) (hend : endKey < bytes "~")
    (web : σ) (tag : τ) :
    ∃ final, (∀ fuel, ((webRows web).between startKey (bytes "~")).size < fuel →
        main env startKey endKey fuel web tag = some final) ∧
      ((∀ k, (∃ e ∈ final.log, e.rowKey = k) ↔ (webRows web).find? k ≠ none ∧ startKey ≤ k ∧ k ≤ endKey) ↔
        ∀ k, (webRows web).find? k ≠ none → startKey ≤ k → k < bytes "~" → k ≤ endKey) := by
  obtain ⟨final,hmain,hlog,-⟩ := main_ends env hw ht hscan startKey endKey web tag
  refine ⟨final,hmain,?_⟩
  have htouched : ∀ k, (∃ e ∈ final.log, e.rowKey = k) ↔
      (webRows web).find? k ≠ none ∧ startKey ≤ k ∧ k < bytes "~" := by
    intro k
    rw [hlog,rowKey_mem_runLog_iff]
    exact OrdMap.mem_keys_between
  simp only [htouched]
  constructor
  · intro h k hk hs hlt
    exact ((h k).mp ⟨hk,hs,hlt⟩).2.2
  · intro h k
    constructor
    · exact fun ⟨hk,hs,hlt⟩ => ⟨hk,hs,h k hk hs hlt⟩
    · exact fun ⟨hk,hs,hle⟩ => ⟨hk,hs,hle.trans_lt hend⟩

end

def twoPages : TableSlice := samplePages.insert (bytes "q2014") (.single (bytes "page") (.single 5 (bytes "y")))

theorem end_key_respected_iff_sample : ∃ final, main sampleEnv [] (bytes "r") 3 twoPages ∅ = some final ∧
    ∀ k, (∃ e ∈ final.log, e.rowKey = k) ↔ twoPages.find? k ≠ none ∧ [] ≤ k ∧ k ≤ bytes "r" := by
  obtain ⟨final,hmain,hiff⟩ := end_key_respected_iff sampleEnv memTable_stores memTable_stores
    memTable_scanRuns [] (bytes "r") (by decide) twoPages ∅
  refine ⟨final,hmain 3 (by decide),hiff.mpr ?_⟩
  intro k hk _ _
  have hkeys : ∀ p ∈ twoPages.entries, p.1 ≤ bytes "r" := by decide
  obtain ⟨record,hrecord⟩ := Option.ne_none_iff_exists'.mp hk
  exact hkeys _ (OrdMap.find?_eq_some_iff.mp hrecord)

/-- A run that should end at the first page goes on to the second. -/
theorem end_key_passed : bytes "p2014" ≠ [] ∧ bytes "p2014" < bytes "~" ∧
    ∃ final, main sampleEnv [] (bytes "p2014") 3 twoPages ∅ = some final ∧
      .row (bytes "q2014") ∈ final.log ∧ ¬ bytes "q2014" ≤ bytes "p2014" := by
  obtain ⟨final,hmain,hlog,-⟩ := main_ends sampleEnv memTable_stores memTable_stores
    memTable_scanRuns [] (bytes "p2014") twoPages ∅
  refine ⟨by decide,by decide,final,hmain 3 (by decide),?_,by decide⟩
  have hrow : (bytes "q2014",.single (bytes "page") (.single 5 (bytes "y"))) ∈
      (twoPages.between [] (bytes "~")).entries := by decide
  obtain ⟨t,ht⟩ := rowEvents_subset sampleEnv 0 hrow
  rw [hlog]
  exact ht List.mem_cons_self

end Aret.Indexer
