import Mathlib.Data.List.AList
import Mathlib.Data.List.MinMax
import Candlestore.Parquet
import Candlestore.RingBuffer

/-!
# The candle store, one call at a time

`CandleStore` keeps one ring per resident symbol and spills the ring of the
least recently used symbol when a new symbol does not fit.  This file is the
single-threaded model: a call runs to completion before the next one starts,
so the entries are plain values in the map.  `Candlestore.Store.Concurrent`
has the interleaved model, in which entries are shared and locks are explicit.

The environment of an append is the outcome of the spill it may cause.  A call
that does not return is `none`: the ring push of a store with capacity zero
panics, and the collision loop of `spill` may never end.
-/

namespace Candlestore

open Lib

/-- Construction parameters.  `dataDir` says whether a cold directory was set
and `uni` holds the Unicode tables behind `char::is_alphanumeric`. -/
structure Config where
  maxSymbols : Nat
  ringCapacity : Nat
  dataDir : Bool
  uni : Char → Bool

/-- One symbol's hot ring, its LRU stamp and the eviction flag. -/
structure Entry (F : Type) where
  buf : RingBuffer F
  lastAccess : Nat
  removed : Bool

/-- Why an append was rejected. -/
inductive AppendError where
  | evictionSpillFailed (evictedSymbol : Symbol) (candlesLost : Nat)
      (source : SpillError)
  | invalidCandle (symbol : Symbol)
  deriving DecidableEq, Repr

/-- The store.  Counters are `u64` in the source and never wrap in practice
("wraps in ~585,000 years"), so they are natural numbers here; `words_eq_self` bounds the
runs for which that makes no difference. -/
structure Store (F : Type) where
  map : AList (fun _ : Symbol => Entry F)
  files : List (ColdFile F)
  version : Nat
  tick : Nat
  evictions : Nat
  parquetSpillBytes : Nat
  parquetSpillErrors : Nat
  invalidCandles : Nat
  outOfOrder : Nat

variable {F : Type}

/-- `CandleStore::with_capacity`, over an empty cold directory. -/
def Store.new : Store F := ⟨∅, [], 0, 0, 0, 0, 0, 0, 0⟩

/-- `size_of::<Candle>()`. -/
def candleBytes : Nat := 48

/-- Least recently used key: `min_by_key` over `last_access`. -/
def evictKey (map : AList (fun _ : Symbol => Entry F)) : Option Symbol :=
  (map.entries.argmin fun e => e.2.lastAccess).map Sigma.fst

namespace Store

/-- The symbol has a ring. -/
def isResident (s : Store F) (symbol : Symbol) : Bool := (s.map.lookup symbol).isSome

/-- Push into a live entry's ring and publish the append; `none` when the entry
was flagged as evicted. -/
def pushAndPublish (s : Store F) (symbol : Symbol) (entry : Entry F)
    (candle : Candle F) : Option (Store F) :=
  if entry.removed then none
  else
    let pushed := entry.buf.push candle
    some
      { s with
        map := s.map.insert symbol { entry with buf := pushed.2 }
        outOfOrder := match pushed.1 with
          | .outOfOrder _ _ => s.outOfOrder + 1
          | .ok => s.outOfOrder
        version := s.version + 1 }

/-- Insert a new symbol with its prepared ring and publish the append. -/
def insertNew (s : Store F) (symbol : Symbol) (buf : RingBuffer F) (tick : Nat) :
    Store F :=
  { s with
    map := s.map.insert symbol ⟨buf, tick, false⟩
    version := s.version + 1 }

/-- Spill and drop the victim `key`.  A failed spill leaves it in the map with
its flag cleared again. -/
def evict (cfg : Config) (s : Store F) (key : Symbol) (io : SpillIo) :
    Option (Store F × Except AppendError Unit) :=
  match s.map.lookup key with
  | none =>
      some ({ s with map := s.map.erase key, evictions := s.evictions + 1 }, .ok ())
  | some e =>
      let flagged := s.map.insert key { e with removed := true }
      let candlesToSpill := e.buf.toVec
      if candlesToSpill.isEmpty || !cfg.dataDir then
        some ({ s with map := flagged.erase key, evictions := s.evictions + 1 }, .ok ())
      else do
        let (files, result) ← spill cfg.uni s.files key candlesToSpill io
        match result with
        | .ok () =>
            return ({ s with
              map := flagged.erase key
              files := files
              evictions := s.evictions + 1
              parquetSpillBytes :=
                s.parquetSpillBytes + candlesToSpill.length * candleBytes },
              .ok ())
        | .error err =>
            return ({ s with
              map := flagged.insert key { e with removed := false }
              files := files
              parquetSpillErrors := s.parquetSpillErrors + 1 },
              .error (.evictionSpillFailed key candlesToSpill.length err))

section Append

variable [F64 F]

/-- Insert a new symbol, evicting the least recently used one at capacity.
When the race check finds a flagged entry the source recurses; with a single
thread nothing can clear the flag in between, so the recursion never ends. -/
def tryInsertNew (cfg : Config) (s : Store F) (symbol : Symbol) (candle : Candle F)
    (tick : Nat) (io : SpillIo) : Option (Store F × Except AppendError Unit) :=
  if hcap : 0 < cfg.ringCapacity then
    let buf := ((RingBuffer.new cfg.ringCapacity hcap).push candle).2
    match s.map.lookup symbol with
    | some entry => do
        let s' ← s.pushAndPublish symbol { entry with lastAccess := tick } candle
        return (s', .ok ())
    | none =>
        if cfg.maxSymbols ≤ s.map.keys.length then
          match evictKey s.map with
          | some key => do
              let (s', result) ← s.evict cfg key io
              match result with
              | .ok () => return (s'.insertNew symbol buf tick, .ok ())
              | .error err => return (s', .error err)
          | none => some (s.insertNew symbol buf tick, .ok ())
        else some (s.insertNew symbol buf tick, .ok ())
  else none

/-- `CandleStore::try_append`. -/
def tryAppend (cfg : Config) (s : Store F) (symbol : Symbol) (candle : Candle F)
    (io : SpillIo) : Option (Store F × Except AppendError Unit) :=
  if !candle.isValid then
    some ({ s with invalidCandles := s.invalidCandles + 1 },
      .error (.invalidCandle symbol))
  else
    let tick := s.tick
    let s := { s with tick := s.tick + 1 }
    match s.map.lookup symbol with
    | some entry =>
        let entry := { entry with lastAccess := tick }
        match s.pushAndPublish symbol entry candle with
        | some s' => some (s', .ok ())
        | none =>
            tryInsertNew cfg { s with map := s.map.insert symbol entry } symbol candle
              tick io
    | none => tryInsertNew cfg s symbol candle tick io

/-- `CandleStore::append`: an error is dropped after a failed spill has been
counted in `appends_rejected`. -/
def append (cfg : Config) (s : Store F) (appendsRejected : Nat) (symbol : Symbol)
    (candle : Candle F) (io : SpillIo) : Option (Store F × Nat) := do
  let (s', result) ← s.tryAppend cfg symbol candle io
  match result with
  | .ok () => return (s', appendsRejected)
  | .error (.invalidCandle _) => return (s', appendsRejected)
  | .error (.evictionSpillFailed _ _ _) => return (s', appendsRejected + 1)

/-- `merge_by_ts`: on equal timestamps the hot candle wins. -/
def mergeByTs (cold hot : List (Candle F)) : List (Candle F) :=
  mergeBy Candle.ts cold hot

/-- Join the hot and the cold half of a range query. -/
def joinHotCold (hot cold : List (Candle F)) : List (Candle F) :=
  if cold.isEmpty then hot
  else if hot.isEmpty then cold
  else mergeByTs cold hot

/-- `CandleStore::range`. -/
def range (cfg : Config) (o : OsOrder F) (s : Store F) (symbol : Symbol)
    (fromTs toTs : Int) : List (Candle F) :=
  let hot := match s.map.lookup symbol with
    | some entry => entry.buf.range fromTs toTs
    | none => []
  if cfg.dataDir then joinHotCold hot (queryCold cfg.uni o s.files symbol fromTs toTs)
  else hot

end Append

/-- `CandleStore::last_n`: the newest `n` hot candles. -/
def lastN (s : Store F) (symbol : Symbol) (n : Nat) : List (Candle F) :=
  match s.map.lookup symbol with
  | some entry => entry.buf.lastN n
  | none => []

/-- `CandleStore::candle_count`. -/
def candleCount (s : Store F) (symbol : Symbol) : Nat :=
  match s.map.lookup symbol with
  | some entry => entry.buf.len
  | none => 0

/-- `CandleStore::symbol_count`. -/
def symbolCount (s : Store F) : Nat := s.map.keys.length

/-- `appends_total` of `CandleStore::snapshot`: the version without the bumps of
`signal_waiters`. -/
def appendsTotal (s : Store F) (signals : Nat) : Nat := s.version - signals

end Store

/-- The early returns of `range` are what merging with an empty list gives. -/
theorem joinHotCold_eq (hot cold : List (Candle F)) :
    Store.joinHotCold hot cold = mergeBy Candle.ts cold hot := by
  unfold Store.joinHotCold Store.mergeByTs
  cases cold with
  | nil => simp [mergeBy]
  | cons c cs =>
      cases hot with
      | nil => simp [mergeBy]
      | cons x xs => rfl

end Candlestore
