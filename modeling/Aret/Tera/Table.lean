import Aret.Lib.ByteOrder
import Aret.Lib.OrdMap
import Mathlib.Data.Int.Order.Basic

/-! The interface of `tera_easy.h`. Tera itself is not part of the repository:
a table is a parameter, and what the programs rely on is stated as laws. -/
namespace Aret.Tera
open Lib

abbrev Key := Bytes
abbrev Column := OrdMap Int Bytes
abbrev Record := OrdMap Key Column
abbrev TableSlice := OrdMap Key Record

def column (record : Record) (name : Key) : Column := record.get name ∅

def cell (record : Record) (name : Key) (timestamp : Int) : Bytes :=
  (column record name).get timestamp []

abbrev Read := Key → Bool × Record
abbrev Scan := Key → Key → Bool × TableSlice

/-- `Table` as its callers see it, over server states `σ`. `Read` and `Scan`
fill an empty record or slice, so that they return what the caller then holds. -/
structure Table (σ : Type) where
  read : σ → Read
  write : σ → Key → Record → Bool × σ
  scan : σ → Scan

/-- A written row is read back; `Read` may deny a row that holds nothing. -/
def ReadsBack {σ : Type} (table : Table σ) : Prop :=
  ∀ s key record, (table.read (table.write s key record).2 key).2 = record ∧
    (record ≠ ∅ → (table.read (table.write s key record).2 key).1 = true)

/-- `rows` tells what the server holds, and a write replaces one row of it. -/
def Stores {σ : Type} (table : Table σ) (rows : σ → TableSlice) : Prop :=
  ∀ s key record, rows (table.write s key record).2 = (rows s).insert key record

/-- `Read` returns what is stored; it may deny a row that holds nothing. -/
def ReadsRows {σ : Type} (table : Table σ) (rows : σ → TableSlice) : Prop :=
  ∀ s key, (table.read s key).2 = (rows s).get key ∅ ∧ ((table.read s key).2 ≠ ∅ → (table.read s key).1 = true)

/-- Each slice is an initial run of the rows in the range, empty only when the
range is. How far a run reaches is up to the server. -/
structure ScanRuns (scan : Scan) (rows : TableSlice) : Prop where
  initial : ∀ s e, (scan s e).2.entries <+: (rows.between s e).entries
  progress : ∀ s e, (rows.between s e).entries ≠ [] → (scan s e).2.entries ≠ []

/-- Initial runs, with an exhausted range reported by the answer `false`. -/
structure ScanCuts (scan : Scan) (rows : TableSlice) : Prop extends ScanRuns scan rows where
  answer : ∀ s e, (scan s e).1 = true ↔ (rows.between s e).entries ≠ []

/-- Initial runs, with an exhausted range reported by an empty slice and the
answer `true`. -/
structure ScanEmpties (scan : Scan) (rows : TableSlice) : Prop extends ScanRuns scan rows where
  answer : ∀ s e, (scan s e).1 = true

/-- At least the first `n` rows of the range, in one answered slice. -/
structure ScanFirst (n : Nat) (scan : Scan) (rows : TableSlice) : Prop where
  initial : ∀ s e, (scan s e).2.entries <+: (rows.between s e).entries
  first : ∀ s e, (rows.between s e).entries.take n <+: (scan s e).2.entries
  answer : ∀ s e, (rows.between s e).entries ≠ [] → (scan s e).1 = true

/-- The whole range in one slice, with the answer `false` when it is empty. -/
structure ScanAll (scan : Scan) (rows : TableSlice) : Prop where
  slice : ∀ s e, (scan s e).2 = rows.between s e
  answer : ∀ s e, (scan s e).1 = true ↔ (rows.between s e).entries ≠ []

theorem ScanAll.cuts {scan : Scan} {rows : TableSlice} (h : ScanAll scan rows) : ScanCuts scan rows where
  initial s e := by rw [h.slice]
  progress s e hne := by rwa [h.slice]
  answer := h.answer

theorem ScanAll.first {scan : Scan} {rows : TableSlice} (h : ScanAll scan rows) (n : Nat) : ScanFirst n scan rows where
  initial s e := by rw [h.slice]
  first s e := by rw [h.slice]; exact List.take_prefix _ _
  answer s e := (h.answer s e).mpr

theorem ScanRuns.mem {scan : Scan} {rows : TableSlice} (h : ScanRuns scan rows) {s e : Key} {p : Key × Record}
    (hp : p ∈ (scan s e).2.entries) : p ∈ rows.entries ∧ s ≤ p.1 ∧ p.1 < e :=
  OrdMap.mem_between.mp ((h.initial s e).subset hp)

/-- A table held in memory, meeting every law above. -/
def memTable : Table TableSlice where
  read rows key := match rows.find? key with
    | some record => (true,record)
    | none => (false,∅)
  write rows key record := (true,rows.insert key record)
  scan rows s e := (!(rows.between s e).isEmpty,rows.between s e)

theorem memTable_readsBack : ReadsBack memTable := by
  intro rows key record
  simp [memTable]

theorem memTable_stores : Stores memTable id := fun _ _ _ => rfl

theorem memTable_readsRows : ReadsRows memTable id := by
  intro rows key
  cases h : rows.find? key with
  | none => simp [memTable,OrdMap.get,h]
  | some record => simp [memTable,OrdMap.get,h]

theorem memTable_scanAll (rows : TableSlice) : ScanAll (memTable.scan rows) rows where
  slice _ _ := rfl
  answer s e := by
    rw [← not_iff_not,not_not,← OrdMap.isEmpty_iff]
    simp [memTable]

theorem memTable_scanRuns (rows : TableSlice) : ScanRuns (memTable.scan rows) rows :=
  (memTable_scanAll rows).cuts.toScanRuns

/-- The whole range with the answer `true`, also when nothing is left in it. -/
def answeredScan (rows : TableSlice) : Scan := fun s e => (true,rows.between s e)

theorem answeredScan_empties (rows : TableSlice) : ScanEmpties (answeredScan rows) rows where
  initial _ _ := List.prefix_rfl
  progress _ _ h := h
  answer _ _ := rfl

end Aret.Tera
