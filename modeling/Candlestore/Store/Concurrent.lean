import Candlestore.Lib.Threads
import Candlestore.Store.Basic

/-!
# The candle store under concurrent calls

Every thread makes one call, and the lock-protected sections of `try_append`,
`try_insert_new` and `range` are the atomic steps.  Entries live on a heap,
because a caller keeps using the entry it looked up after the map has dropped
it; a heap cell is never freed.  The per-entry lock is held by no one across two
steps, so it needs no state of its own.  The outer lock does: it is held for
writing from the race check of an insertion to its end, and every map read waits
for it.

Two things of the source are left open.  The victim of an eviction is any
resident symbol, since the scan for the smallest `last_access` reads stamps that
other threads are storing.  The outcome of a spill is a choice of the
environment; between creating the file and closing its writer, the file can be
seen but not read.  A collision loop that finds no free name takes no step.

`marked`, `pending` and `hist` are not read by the code.  They record which
entry the holder of the outer lock has flagged, which snapshot has been written
but not yet dropped from the map, and what has happened so far.
-/

namespace Candlestore.Concurrent

open Lib

/-- Address of an entry: the map and the callers share entries by address. -/
abbrev EntryId := Nat

/-- What one thread calls. -/
inductive Request (F : Type) where
  | append (symbol : Symbol) (candle : Candle F)
  | range (symbol : Symbol) (fromTs toTs : Int)

/-- An entry on the heap, with the symbol it was inserted for. -/
structure Cell (F : Type) extends Entry F where
  symbol : Symbol

/-- An entry that is being evicted, with the snapshot taken of its ring. -/
structure Victim (F : Type) where
  key : Symbol
  entry : EntryId
  snapshot : List (Candle F)

/-- Where a call stands, named after the section it enters next. -/
inductive Pc (F : Type) where
  | idle
  | lookup (tick : Nat)
  | touch (tick : Nat) (e : EntryId)
  | push (tick : Nat) (e : EntryId)
  | insert (tick : Nat)
  | evict (fresh : Entry F) (key : Symbol) (e : EntryId)
  | spill (fresh : Entry F) (v : Victim F)
  | writing (fresh : Entry F) (v : Victim F) (name : List Char)
  | install (fresh : Entry F) (victim : Option (Victim F))
  | abort (v : Victim F) (err : SpillError)
  | publish
  | rangeHot (found : Option EntryId)
  | rangeCold (hot : List (Candle F))
  | appended (result : Except AppendError Unit)
  | ranged (result : List (Candle F))
  | panicked

/-- The call has returned, or died. -/
def Pc.finished {F : Type} : Pc F → Bool
  | .appended _ => true
  | .ranged _ => true
  | .panicked => true
  | _ => false

/-- The call has not begun. -/
def Pc.isIdle {F : Type} : Pc F → Bool
  | .idle => true
  | _ => false

/-- The append has returned `Ok`. -/
def Pc.isAccepted {F : Type} : Pc F → Bool
  | .appended (.ok ()) => true
  | _ => false

/-- The query has returned. -/
def Pc.isRanged {F : Type} : Pc F → Bool
  | .ranged _ => true
  | _ => false

theorem Pc.eq_idle {F : Type} {p : Pc F} (h : p.isIdle = true) : p = .idle := by
  cases p with
  | idle => rfl
  | _ => cases h

theorem Pc.eq_accepted {F : Type} {p : Pc F} (h : p.isAccepted = true) :
    p = .appended (.ok ()) := by
  cases p with
  | appended result =>
      cases result with
      | ok => rfl
      | error => cases h
  | _ => cases h

theorem Pc.exists_ranged {F : Type} {p : Pc F} (h : p.isRanged = true) :
    ∃ result, p = .ranged result := by
  cases p with
  | ranged result => exact ⟨result, rfl⟩
  | _ => cases h

/-- The call holds the outer lock for writing. -/
def Pc.holds {F : Type} : Pc F → Bool
  | .evict _ _ _ => true
  | .spill _ _ => true
  | .writing _ _ _ => true
  | .install _ _ => true
  | .abort _ _ => true
  | _ => false

/-- What the history of a store records. -/
inductive Event (τ F : Type) where
  /-- A map lookup of an append, in the fast path or as race check. -/
  | lookup (thread : τ) (found : Option EntryId)
  /-- A candle entered a ring, overwriting `lost`. -/
  | push (thread : τ) (entry : EntryId) (symbol : Symbol) (candle : Candle F)
      (lost : Option (Candle F))
  /-- A caller found its entry flagged and starts over. -/
  | retry (thread : τ) (entry : EntryId)
  /-- An eviction starts: the entry is flagged and its ring copied. -/
  | snapshot (thread : τ) (entry : EntryId)
  /-- The eviction is given up and the flag cleared. -/
  | aborted (thread : τ) (entry : EntryId)
  /-- The eviction is done and the entry out of the map. -/
  | evicted (thread : τ) (entry : EntryId) (symbol : Symbol) (snapshot : List (Candle F))
  | returned (thread : τ) (result : Except AppendError Unit)

/-- The atomic counters of the store. -/
structure Counters where
  version : Nat
  tick : Nat
  evictions : Nat
  parquetSpillBytes : Nat
  parquetSpillErrors : Nat
  invalidCandles : Nat
  outOfOrder : Nat

/-- What the store keeps: the entries, the map, the cold files and the counters. -/
structure Data (F : Type) where
  heap : List (Cell F)
  map : AList (fun _ : Symbol => EntryId)
  files : List (ColdFile F)
  counters : Counters

/-- The shared memory: what the store keeps, the holder of the outer lock and the
records. -/
structure Mem (τ F : Type) extends Data F where
  lock : Option τ
  marked : Option EntryId
  pending : Option (Victim F)
  hist : List (Event τ F)

/-- What the environment decides in a step. -/
structure Choice where
  victim : Symbol
  io : SpillIo

variable {τ F : Type}

section Steps

variable [F64 F] (cfg : Config)

/-- The ring `try_insert_new` prepares before it takes the lock; `none` is the
panic of a push into a ring without slots. -/
def newRing (candle : Candle F) : Option (RingBuffer F) :=
  if hcap : 0 < cfg.ringCapacity then
    some ((RingBuffer.new cfg.ringCapacity hcap).push candle).2
  else none

end Steps

/-! ## What the sections do to the data -/

namespace Data

/-- A new store over an empty cold directory. -/
def new : Data F := ⟨[], ∅, [], ⟨0, 0, 0, 0, 0, 0, 0⟩⟩

/-- `tick.fetch_add(1)`. -/
def bumpTick (d : Data F) : Data F :=
  { d with counters := { d.counters with tick := d.counters.tick + 1 } }

/-- The count of an invalid candle. -/
def reject (d : Data F) : Data F :=
  { d with
    counters := { d.counters with invalidCandles := d.counters.invalidCandles + 1 } }

/-- `entry.last_access.store(tick)`. -/
def touch (d : Data F) (tick : Nat) (e : EntryId) : Data F :=
  { d with heap := d.heap.modify e fun cell => { cell with lastAccess := tick } }

/-- `buf_guard.push(candle)` on the live cell `e`, with the count of a backwards
timestamp. -/
def push (d : Data F) (e : EntryId) (cell : Cell F) (candle : Candle F) : Data F :=
  { d with
    heap := d.heap.modify e fun cell => { cell with buf := (cell.buf.push candle).2 }
    counters := match (cell.buf.push candle).1 with
      | .outOfOrder _ _ => { d.counters with outOfOrder := d.counters.outOfOrder + 1 }
      | .ok => d.counters }

/-- `version.fetch_add(1)`. -/
def publish (d : Data F) : Data F :=
  { d with counters := { d.counters with version := d.counters.version + 1 } }

/-- `removed.store(true)`. -/
def mark (d : Data F) (e : EntryId) : Data F :=
  { d with heap := d.heap.modify e fun cell => { cell with removed := true } }

/-- `removed.store(false)`, with the count of the failed spill. -/
def abort (d : Data F) (v : Victim F) : Data F :=
  { d with
    heap := d.heap.modify v.entry fun cell => { cell with removed := false }
    counters :=
      { d.counters with parquetSpillErrors := d.counters.parquetSpillErrors + 1 } }

/-- The spill succeeded: the created file has become readable. -/
def write (d : Data F) (cfg : Config) (v : Victim F) (name : List Char) : Data F :=
  { d with
    files := writeTable d.files (escapeSymbol cfg.uni v.key) name v.snapshot
    counters := { d.counters with
      parquetSpillBytes :=
        d.counters.parquetSpillBytes + v.snapshot.length * candleBytes } }

/-- `g.remove(&key)`, with the count of the eviction. -/
def remove (d : Data F) (v : Victim F) : Data F :=
  { d with
    map := d.map.erase v.key
    counters := { d.counters with evictions := d.counters.evictions + 1 } }

/-- `g.insert(symbol, entry)`. -/
def insert (d : Data F) (symbol : Symbol) (fresh : Entry F) : Data F :=
  { d with
    heap := d.heap ++ [⟨fresh, symbol⟩]
    map := d.map.insert symbol d.heap.length }

/-- The choice of a victim, or of none while there is room. -/
def choose (d : Data F) (cfg : Config) (ch : Choice) (tick : Nat) (ring : RingBuffer F) :
    Option (Pc F) :=
  if cfg.maxSymbols ≤ d.map.keys.length ∧ d.map.keys ≠ [] then
    (d.map.lookup ch.victim).map (.evict ⟨ring, tick, false⟩ ch.victim)
  else some (.install ⟨ring, tick, false⟩ none)

/-- The spill of a victim up to the creation of its file. -/
def beginSpill (d : Data F) (cfg : Config) (ch : Choice) (fresh : Entry F)
    (v : Victim F) : Option (Data F × Pc F) :=
  match v.snapshot with
  | [] => some (d, .install fresh (some v))
  | c :: cs =>
      if cfg.dataDir then
        match ch.io with
        | .failBefore err => some (d, .abort v err)
        | _ => do
            let dir := escapeSymbol cfg.uni v.key
            let name ← freeName d.files dir (tsStart c cs) (tsEnd c cs)
            return ({ d with files := createFile d.files dir name },
              .writing fresh v name)
      else some (d, .install fresh (some v))

end Data

/-! ## The sections as steps -/

namespace Mem

/-- A new store over an empty cold directory. -/
def new : Mem τ F where
  toData := .new
  lock := none
  marked := none
  pending := none
  hist := []

/-- Record an event. -/
def log (m : Mem τ F) (ev : Event τ F) : Mem τ F := { m with hist := m.hist ++ [ev] }

/-- The store of `last_access`. -/
def touch (m : Mem τ F) (tick : Nat) (e : EntryId) : Mem τ F :=
  { m with toData := m.toData.touch tick e }

/-- The push of `push_and_publish` into the live cell `e`. -/
def push (m : Mem τ F) (t : τ) (e : EntryId) (cell : Cell F) (symbol : Symbol)
    (candle : Candle F) : Mem τ F :=
  { m with
    toData := m.toData.push e cell candle
    hist := m.hist ++ [.push t e symbol candle cell.buf.overwritten] }

/-- The version bump, after which the append returns. -/
def publish (m : Mem τ F) (t : τ) : Mem τ F :=
  { m with
    toData := m.toData.publish
    hist := m.hist ++ [.returned t (.ok ())] }

/-- Reject an invalid candle. -/
def reject (m : Mem τ F) (t : τ) (symbol : Symbol) : Mem τ F :=
  { m with
    toData := m.toData.reject
    hist := m.hist ++ [.returned t (.error (.invalidCandle symbol))] }

/-- Flag the victim, under its own lock. -/
def mark (m : Mem τ F) (t : τ) (e : EntryId) : Mem τ F :=
  { m with
    toData := m.toData.mark e
    marked := some e
    hist := m.hist ++ [.snapshot t e] }

/-- The snapshot is on disk. -/
def write (m : Mem τ F) (cfg : Config) (v : Victim F) (name : List Char) : Mem τ F :=
  { m with
    toData := m.toData.write cfg v name
    pending := some v }

/-- Give an eviction up: the entry stays in the map, its flag is cleared, and
the append that wanted its place fails. -/
def abort (m : Mem τ F) (t : τ) (v : Victim F) (err : SpillError) : Mem τ F :=
  { m with
    toData := m.toData.abort v
    lock := none
    marked := none
    hist := m.hist ++ [.aborted t v.entry,
      .returned t (.error (.evictionSpillFailed v.key v.snapshot.length err))] }

/-- Complete an eviction. -/
def remove (m : Mem τ F) (t : τ) (v : Victim F) : Mem τ F :=
  { m with
    toData := m.toData.remove v
    marked := none
    pending := none
    hist := m.hist ++ [.evicted t v.entry v.key v.snapshot] }

/-- Insert a new entry and release the outer lock. -/
def insert (m : Mem τ F) (t : τ) (symbol : Symbol) (candle : Candle F)
    (fresh : Entry F) : Mem τ F :=
  { m with
    toData := m.toData.insert symbol fresh
    lock := none
    hist := m.hist ++ [.push t m.heap.length symbol candle none] }

theorem heap_mark (m : Mem τ F) (t : τ) (e : EntryId) :
    (m.mark t e).heap = m.heap.modify e fun cell => { cell with removed := true } := rfl

theorem heap_abort (m : Mem τ F) (t : τ) (v : Victim F) (err : SpillError) :
    (m.abort t v err).heap =
      m.heap.modify v.entry fun cell => { cell with removed := false } := rfl

theorem files_write (m : Mem τ F) (cfg : Config) (v : Victim F) (name : List Char) :
    (m.write cfg v name).files =
      writeTable m.files (escapeSymbol cfg.uni v.key) name v.snapshot := rfl

theorem counters_reject (m : Mem τ F) (t : τ) (symbol : Symbol) :
    (m.reject t symbol).counters =
      { m.counters with invalidCandles := m.counters.invalidCandles + 1 } := rfl

theorem counters_publish (m : Mem τ F) (t : τ) :
    (m.publish t).counters = { m.counters with version := m.counters.version + 1 } := rfl

theorem counters_mark (m : Mem τ F) (t : τ) (e : EntryId) :
    (m.mark t e).counters = m.counters := rfl

theorem counters_remove (m : Mem τ F) (t : τ) (v : Victim F) :
    (m.remove t v).counters =
      { m.counters with evictions := m.counters.evictions + 1 } := rfl

theorem counters_insert (m : Mem τ F) (t : τ) (symbol : Symbol) (candle : Candle F)
    (fresh : Entry F) : (m.insert t symbol candle fresh).counters = m.counters := rfl

theorem version_push (m : Mem τ F) (t : τ) (e : EntryId) (cell : Cell F)
    (symbol : Symbol) (candle : Candle F) :
    (m.push t e cell symbol candle).counters.version = m.counters.version := by
  show (match (cell.buf.push candle).1 with
    | .outOfOrder _ _ => { m.counters with outOfOrder := m.counters.outOfOrder + 1 }
    | .ok => m.counters).version = _
  split <;> rfl

end Mem

section Steps

variable [F64 F] (cfg : Config)

/-- The spill of a victim up to the creation of its file. -/
def beginSpill (ch : Choice) (m : Mem τ F) (fresh : Entry F) (v : Victim F) :
    Option (Mem τ F × Pc F) :=
  (m.toData.beginSpill cfg ch fresh v).map fun r => ({ m with toData := r.1 }, r.2)

/-- Race check and choice of a victim, under the outer lock.  On a hit the lock
is dropped again at once. -/
def beginInsert (t : τ) (ch : Choice) (symbol : Symbol) (m : Mem τ F) (tick : Nat)
    (ring : RingBuffer F) : Option (Mem τ F × Pc F) :=
  match m.map.lookup symbol with
  | some e => some (m.log (.lookup t (some e)), .touch tick e)
  | none =>
      (m.choose cfg ch tick ring).map fun p =>
        ({ m.log (.lookup t none) with lock := some t }, p)

/-- The next step of `try_append(symbol, candle)`. -/
def appendStep (t : τ) (ch : Choice) (symbol : Symbol) (candle : Candle F)
    (m : Mem τ F) :
    Pc F → Option (Mem τ F × Pc F)
  | .idle =>
      if candle.isValid then
        some ({ m with toData := m.bumpTick }, .lookup m.counters.tick)
      else some (m.reject t symbol, .appended (.error (.invalidCandle symbol)))
  | .lookup tick =>
      if m.lock.isSome then none
      else
        let found := m.map.lookup symbol
        some (m.log (.lookup t found), match found with
          | some e => .touch tick e
          | none => .insert tick)
  | .touch tick e => some (m.touch tick e, .push tick e)
  | .push tick e =>
      match m.heap[e]? with
      | some cell =>
          if cell.removed then some (m.log (.retry t e), .insert tick)
          else some (m.push t e cell symbol candle, .publish)
      | none => none
  | .insert tick =>
      match newRing cfg candle with
      | none => some (m, .panicked)
      | some ring =>
          if m.lock.isSome then none else beginInsert cfg t ch symbol m tick ring
  | .evict fresh key e =>
      match m.heap[e]? with
      | some cell => some (m.mark t e, .spill fresh ⟨key, e, cell.buf.toVec⟩)
      | none => none
  | .spill fresh v => beginSpill cfg ch m fresh v
  | .writing fresh v name =>
      match ch.io with
      | .ok => some (m.write cfg v name, .install fresh (some v))
      | .failAfter err => some (m, .abort v err)
      | .failBefore _ => none
  | .install fresh none => some (m.insert t symbol candle fresh, .publish)
  | .install fresh (some v) =>
      some ((m.remove t v).insert t symbol candle fresh, .publish)
  | .abort v err =>
      some (m.abort t v err,
        .appended (.error (.evictionSpillFailed v.key v.snapshot.length err)))
  | .publish => some (m.publish t, .appended (.ok ()))
  | _ => none

/-- The next step of `range(symbol, from_ts, to_ts)`. -/
def rangeStep (o : OsOrder F) (symbol : Symbol) (fromTs toTs : Int) (m : Mem τ F) :
    Pc F → Option (Mem τ F × Pc F)
  | .idle => if m.lock.isSome then none else some (m, .rangeHot (m.map.lookup symbol))
  | .rangeHot none => some (m, .rangeCold [])
  | .rangeHot (some e) =>
      match m.heap[e]? with
      | some cell => some (m, .rangeCold (cell.buf.range fromTs toTs))
      | none => none
  | .rangeCold hot =>
      some (m, .ranged (if cfg.dataDir then
        Store.joinHotCold hot (queryCold cfg.uni o m.files symbol fromTs toTs) else hot))
  | _ => none

/-- The next step of a thread.  `order` is how the operating system answers the
directory listings of each call. -/
def next (order : τ → OsOrder F) (req : τ → Request F) (t : τ) (ch : Choice)
    (m : Mem τ F) (pc : Pc F) : Option (Mem τ F × Pc F) :=
  match req t with
  | .append symbol candle => appendStep cfg t ch symbol candle m pc
  | .range symbol fromTs toTs => rangeStep cfg (order t) symbol fromTs toTs m pc

end Steps

section Moves

variable [F64 F] {cfg : Config} {t : τ} {ch : Choice} {symbol : Symbol}
  {candle : Candle F} {m m' : Mem τ F} {p p' : Pc F}

/-- Everything a step of an append can do, with the guard of each branch. -/
inductive AppendMove (cfg : Config) (t : τ) (ch : Choice) (symbol : Symbol)
    (candle : Candle F) (m : Mem τ F) : Pc F → Mem τ F → Pc F → Prop where
  | begin : AppendMove cfg t ch symbol candle m .idle { m with toData := m.bumpTick }
      (.lookup m.counters.tick)
  | reject : AppendMove cfg t ch symbol candle m .idle (m.reject t symbol)
      (.appended (.error (.invalidCandle symbol)))
  | hit (tick : Nat) (e : EntryId) : m.lock = none → m.map.lookup symbol = some e →
      AppendMove cfg t ch symbol candle m (.lookup tick) (m.log (.lookup t (some e)))
        (.touch tick e)
  | miss (tick : Nat) : AppendMove cfg t ch symbol candle m (.lookup tick)
      (m.log (.lookup t none)) (.insert tick)
  | touch (tick : Nat) (e : EntryId) :
      AppendMove cfg t ch symbol candle m (.touch tick e) (m.touch tick e) (.push tick e)
  | retry (tick : Nat) (e : EntryId) (cell : Cell F) : m.heap[e]? = some cell →
      cell.removed = true →
      AppendMove cfg t ch symbol candle m (.push tick e) (m.log (.retry t e))
        (.insert tick)
  | push (tick : Nat) (e : EntryId) (cell : Cell F) : m.heap[e]? = some cell →
      cell.removed = false →
      AppendMove cfg t ch symbol candle m (.push tick e)
        (m.push t e cell symbol candle) .publish
  | panic (tick : Nat) : AppendMove cfg t ch symbol candle m (.insert tick) m .panicked
  | raceHit (tick : Nat) (e : EntryId) : m.lock = none → m.map.lookup symbol = some e →
      AppendMove cfg t ch symbol candle m (.insert tick) (m.log (.lookup t (some e)))
        (.touch tick e)
  | acquireFull (tick : Nat) (ring : RingBuffer F) (e : EntryId) :
      newRing cfg candle = some ring → m.lock = none → m.map.lookup symbol = none →
      m.map.lookup ch.victim = some e →
      AppendMove cfg t ch symbol candle m (.insert tick)
        { m.log (.lookup t none) with lock := some t }
        (.evict ⟨ring, tick, false⟩ ch.victim e)
  | acquireFree (tick : Nat) (ring : RingBuffer F) :
      newRing cfg candle = some ring → m.lock = none → m.map.lookup symbol = none →
      AppendMove cfg t ch symbol candle m (.insert tick)
        { m.log (.lookup t none) with lock := some t }
        (.install ⟨ring, tick, false⟩ none)
  | mark (fresh : Entry F) (key : Symbol) (e : EntryId) (cell : Cell F) :
      m.heap[e]? = some cell →
      AppendMove cfg t ch symbol candle m (.evict fresh key e) (m.mark t e)
        (.spill fresh ⟨key, e, cell.buf.toVec⟩)
  | skipSpill (fresh : Entry F) (v : Victim F) : v.snapshot = [] ∨ cfg.dataDir = false →
      AppendMove cfg t ch symbol candle m (.spill fresh v) m (.install fresh (some v))
  | failBefore (fresh : Entry F) (v : Victim F) (err : SpillError) :
      AppendMove cfg t ch symbol candle m (.spill fresh v) m (.abort v err)
  | create (fresh : Entry F) (v : Victim F) (c : Candle F) (cs : List (Candle F))
      (name : List Char) : v.snapshot = c :: cs →
      freeName m.files (escapeSymbol cfg.uni v.key) (tsStart c cs) (tsEnd c cs) =
        some name →
      AppendMove cfg t ch symbol candle m (.spill fresh v)
        { m with files := createFile m.files (escapeSymbol cfg.uni v.key) name }
        (.writing fresh v name)
  | write (fresh : Entry F) (v : Victim F) (name : List Char) :
      AppendMove cfg t ch symbol candle m (.writing fresh v name) (m.write cfg v name)
        (.install fresh (some v))
  | failAfter (fresh : Entry F) (v : Victim F) (name : List Char) (err : SpillError) :
      AppendMove cfg t ch symbol candle m (.writing fresh v name) m (.abort v err)
  | install (fresh : Entry F) : AppendMove cfg t ch symbol candle m (.install fresh none)
      (m.insert t symbol candle fresh) .publish
  | replace (fresh : Entry F) (v : Victim F) :
      AppendMove cfg t ch symbol candle m (.install fresh (some v))
        ((m.remove t v).insert t symbol candle fresh) .publish
  | abort (v : Victim F) (err : SpillError) :
      AppendMove cfg t ch symbol candle m (.abort v err) (m.abort t v err)
        (.appended (.error (.evictionSpillFailed v.key v.snapshot.length err)))
  | publish : AppendMove cfg t ch symbol candle m .publish (m.publish t)
      (.appended (.ok ()))

omit [F64 F] in
/-- Inversion of the choice: a victim if the store is full, and none if it is not. -/
theorem Data.choose_cases {d : Data F} {tick : Nat} {ring : RingBuffer F}
    (h : d.choose cfg ch tick ring = some p) :
    (∃ e, d.map.lookup ch.victim = some e ∧ p = .evict ⟨ring, tick, false⟩ ch.victim e) ∨
      ¬(cfg.maxSymbols ≤ d.map.keys.length ∧ d.map.keys ≠ []) ∧
        p = .install ⟨ring, tick, false⟩ none := by
  rw [choose] at h
  split at h
  · obtain ⟨e, he, heq⟩ := Option.map_eq_some_iff.1 h
    exact .inl ⟨e, he, heq.symm⟩
  · next hroom => exact .inr ⟨hroom, (Option.some.inj h).symm⟩

theorem beginInsert_move {tick : Nat} {ring : RingBuffer F}
    (hring : newRing cfg candle = some ring) (hlock : m.lock = none)
    (h : beginInsert cfg t ch symbol m tick ring = some (m', p')) :
    AppendMove cfg t ch symbol candle m (.insert tick) m' p' := by
  rw [beginInsert] at h
  cases hfound : m.map.lookup symbol with
  | some e =>
      rw [hfound] at h
      cases h
      exact .raceHit tick e hlock hfound
  | none =>
      rw [hfound] at h
      obtain ⟨p, hchoose, heq⟩ := Option.map_eq_some_iff.1 h
      cases heq
      rcases Data.choose_cases hchoose with ⟨e, hkey, rfl⟩ | ⟨-, rfl⟩
      · exact .acquireFull tick ring e hring hlock hfound hkey
      · exact .acquireFree tick ring hring hlock hfound

theorem beginSpill_move {fresh : Entry F} {v : Victim F}
    (h : beginSpill cfg ch m fresh v = some (m', p')) :
    AppendMove cfg t ch symbol candle m (.spill fresh v) m' p' := by
  obtain ⟨⟨d, p⟩, hspill, heq⟩ := Option.map_eq_some_iff.1 h
  cases heq
  rw [Data.beginSpill] at hspill
  cases hsnap : v.snapshot with
  | nil =>
      rw [hsnap] at hspill
      cases hspill
      exact .skipSpill fresh v (.inl hsnap)
  | cons c cs =>
      rw [hsnap] at hspill
      dsimp only at hspill
      split at hspill
      · split at hspill
        · cases hspill
          exact .failBefore fresh v _
        · obtain ⟨name, hname, heq⟩ := Option.bind_eq_some_iff.1 hspill
          cases heq
          exact .create fresh v c cs name hsnap hname
      · next hdir =>
          cases hspill
          exact .skipSpill fresh v (.inr (Bool.eq_false_iff.2 hdir))

/-- Inversion of a step of an append. -/
theorem appendStep_move (h : appendStep cfg t ch symbol candle m p = some (m', p')) :
    AppendMove cfg t ch symbol candle m p m' p' := by
  cases p with
  | idle =>
      rw [appendStep] at h
      split at h
      · cases h
        exact .begin
      · cases h
        exact .reject
  | lookup tick =>
      rw [appendStep] at h
      split at h
      · cases h
      · next hlock =>
          have hlock : m.lock = none := by simpa using hlock
          cases hfound : m.map.lookup symbol with
          | some e =>
              rw [hfound] at h
              cases h
              exact .hit tick e hlock hfound
          | none =>
              rw [hfound] at h
              cases h
              exact .miss tick
  | touch tick e =>
      cases h
      exact .touch tick e
  | push tick e =>
      rw [appendStep] at h
      split at h
      · next cell hcell =>
          split at h
          · next hrem =>
              cases h
              exact .retry tick e cell hcell hrem
          · next hlive =>
              cases h
              exact .push tick e cell hcell (Bool.eq_false_iff.2 hlive)
      · cases h
  | insert tick =>
      rw [appendStep] at h
      split at h
      · cases h
        exact .panic tick
      · next ring hring =>
          split at h
          · cases h
          · next hlock => exact beginInsert_move hring (by simpa using hlock) h
  | evict fresh key e =>
      rw [appendStep] at h
      split at h
      · next cell hcell =>
          cases h
          exact .mark fresh key e cell hcell
      · cases h
  | spill fresh v => exact beginSpill_move h
  | writing fresh v name =>
      rw [appendStep] at h
      split at h
      · cases h
        exact .write fresh v name
      · cases h
        exact .failAfter fresh v name _
      · cases h
  | install fresh victim =>
      cases victim with
      | none =>
          cases h
          exact .install fresh
      | some v =>
          cases h
          exact .replace fresh v
  | abort v err =>
      cases h
      exact .abort v err
  | publish =>
      cases h
      exact .publish
  | appended | panicked | rangeHot | rangeCold | ranged => cases h

end Moves

/-- No call has begun. -/
def start : World (Mem τ F) (Pc F) τ := ⟨.new, fun _ => .idle⟩

/-! ## Reading the history -/

namespace Event

/-- Who took the step. -/
def thread : Event τ F → τ
  | .lookup t _ => t
  | .push t _ _ _ _ => t
  | .retry t _ => t
  | .snapshot t _ => t
  | .aborted t _ => t
  | .evicted t _ _ _ => t
  | .returned t _ => t

/-- The entry an eviction or a push is about. -/
def subject? : Event τ F → Option EntryId
  | .push _ e _ _ _ => some e
  | .snapshot _ e => some e
  | .aborted _ e => some e
  | .evicted _ e _ _ => some e
  | _ => none

end Event

section History

variable [DecidableEq τ]

/-- The pushes of one thread: the entry, and what was pushed. -/
def pushesBy (t : τ) (hist : List (Event τ F)) : List (EntryId × Symbol × Candle F) :=
  hist.flatMap fun
    | .push u e symbol candle _ => if u = t then [(e, symbol, candle)] else []
    | _ => []

/-- What the call of one thread has returned. -/
def returnsBy (t : τ) (hist : List (Event τ F)) : List (Except AppendError Unit) :=
  hist.flatMap fun
    | .returned u result => if u = t then [result] else []
    | _ => []

/-- How often a thread has started over. -/
def retriesBy (t : τ) (hist : List (Event τ F)) : Nat :=
  hist.countP fun
    | .retry u _ => u = t
    | _ => false

end History

/-- Evictions begun, whatever became of them. -/
def evictionsBegun (hist : List (Event τ F)) : Nat :=
  hist.countP fun
    | .snapshot _ _ => true
    | _ => false

/-- The candles pushed into one entry, in order. -/
def pushesTo (e : EntryId) (hist : List (Event τ F)) : List (Candle F) :=
  hist.flatMap fun
    | .push _ e' _ candle _ => if e' = e then [candle] else []
    | _ => []

/-- The candles overwritten in one entry's ring. -/
def lostTo (e : EntryId) (hist : List (Event τ F)) : List (Candle F) :=
  hist.flatMap fun
    | .push _ e' _ _ lost => if e' = e then lost.toList else []
    | _ => []

/-- The candles pushed under a symbol, in order. -/
def pushesUnder (symbol : Symbol) (hist : List (Event τ F)) : List (Candle F) :=
  hist.flatMap fun
    | .push _ _ symbol' candle _ => if symbol' = symbol then [candle] else []
    | _ => []

/-- The candles a symbol lost to ring wrap. -/
def lostUnder (symbol : Symbol) (hist : List (Event τ F)) : List (Candle F) :=
  hist.flatMap fun
    | .push _ _ symbol' _ lost => if symbol' = symbol then lost.toList else []
    | _ => []

/-- The candles of a symbol's evicted snapshots. -/
def evictedUnder (symbol : Symbol) (hist : List (Event τ F)) : List (Candle F) :=
  hist.flatMap fun
    | .evicted _ _ symbol' snapshot => if symbol' = symbol then snapshot else []
    | _ => []

/-- The candles of the evicted snapshots that belong to one cold directory. -/
def evictedIn (uni : Char → Bool) (dir : List Char) (hist : List (Event τ F)) :
    List (Candle F) :=
  hist.flatMap fun
    | .evicted _ _ symbol snapshot =>
        if escapeSymbol uni symbol = dir then snapshot else []
    | _ => []

/-- The threads whose call returned `Ok`, in order. -/
def accepters (hist : List (Event τ F)) : List τ :=
  hist.flatMap fun
    | .returned t (.ok ()) => [t]
    | _ => []

/-- The candles of the calls that returned `Ok`, for one symbol. -/
def acceptedUnder (req : τ → Request F) (symbol : Symbol) (hist : List (Event τ F)) :
    List (Candle F) :=
  hist.flatMap fun
    | .returned t (.ok ()) => match req t with
        | .append symbol' candle => if symbol' = symbol then [candle] else []
        | .range _ _ _ => []
    | _ => []

/-- What is in the ring of a symbol's mapped entry. -/
def hotCandles (heap : List (Cell F)) (map : AList fun _ : Symbol => EntryId)
    (symbol : Symbol) : List (Candle F) :=
  match map.lookup symbol with
  | some e => (heap[e]?.map fun cell => cell.buf.toVec).getD []
  | none => []

/-- The rows of a written snapshot that is still in the map. -/
def pendingIn (uni : Char → Bool) (dir : List Char) : Option (Victim F) → List (Candle F)
  | some v => if escapeSymbol uni v.key = dir then v.snapshot else []
  | none => []

/-! ## A race for one slot

Three appends to a store that has room for one symbol: `A`, `B` and `A` again, each of
which evicts what is there. -/

namespace Race

/-- One symbol, rings of one candle, and a data directory. -/
def config : Config := ⟨1, 1, true, fun _ => false⟩

/-- What the three threads call. -/
def calls : Fin 3 → Request ℚ := fun t =>
  .append (if t = 1 then ['B'] else ['A']) (flatCandle t 1)

/-- Turns of one thread in a row, all with the same outcome of a spill. -/
def turns (t : Fin 3) (n : Nat) (io : SpillIo) : List (Turn (Fin 3) Choice) :=
  List.replicate n ⟨t, ⟨if t = 1 then ['A'] else ['B'], io⟩⟩

/-- While the second call evicts `A`, the third one has already looked `A` up; it finds
the flag raised and starts over, and then its own eviction of `B` fails. -/
def sections : List (Turn (Fin 3) Choice) :=
  turns 0 5 .ok ++ turns 2 3 .ok ++ turns 1 4 .ok ++ turns 2 1 .ok ++ turns 1 4 .ok ++
    turns 2 5 (.failAfter .io)

end Race

end Candlestore.Concurrent
