import Candlestore.Lib.RwLock
import Candlestore.Store.Concurrent

/-!
# The locks of the store, one access at a time

`Candlestore.Store.Concurrent` takes every lock-protected section as one step.
Here the locks are there: the readers-writer lock around the map and the one
around each ring.  Taking a lock, each access made under it and releasing it are
steps of their own, and any other thread may move between two of them.

The flag of an entry is stored under the ring's lock when an eviction begins, but
cleared under the outer lock alone when the eviction is given up.

Nothing is recorded here that the code does not keep: the memory is the `Data` of
the atomic model and the locks.
-/

namespace Candlestore.Concurrent

open Lib

/-- The memory behind its locks. -/
structure LockMem (τ F : Type) where
  data : Data F
  outer : RwLock τ
  inner : EntryId → RwLock τ

/-- Where a call stands.  The sections are entered from the program points of the
atomic model; the other points are inside one. -/
inductive LockPc (F : Type) where
  | enter (p : Pc F)
  /-- The map is read-locked for the lookup at `p`. -/
  | mapRead (p : Pc F)
  /-- The read guard of the map is dropped next, and the call goes on at `p`. -/
  | mapRelease (p : Pc F)
  /-- The map is write-locked, with the new ring prepared. -/
  | raceCheck (tick : Nat) (ring : RingBuffer F)
  | choose (tick : Nat) (ring : RingBuffer F)
  /-- The write guard of the map is dropped next. -/
  | mapUnlock (p : Pc F)
  /-- The ring is write-locked by an append. -/
  | flagCheck (tick : Nat) (e : EntryId)
  | ringPush (tick : Nat) (e : EntryId)
  /-- The ring of the victim is write-locked by an eviction. -/
  | flagSet (fresh : Entry F) (key : Symbol) (e : EntryId)
  | ringCopy (fresh : Entry F) (key : Symbol) (e : EntryId)
  /-- The ring is read-locked by a query. -/
  | ringRead (e : EntryId)
  /-- The guard of the ring is dropped next. -/
  | ringRelease (e : EntryId) (p : Pc F)

variable {τ F : Type}

/-- Under the write guard of the map nobody sees it between the removal of the
victim and the insertion. -/
def Data.install (d : Data F) (symbol : Symbol) (fresh : Entry F) :
    Option (Victim F) → Data F
  | none => d.insert symbol fresh
  | some v => (d.remove v).insert symbol fresh

namespace LockMem

/-- An empty store with all locks free. -/
def new : LockMem τ F := ⟨.new, .free, fun _ => .free⟩

variable [DecidableEq τ]

/-- The guard of the map is dropped. -/
def releaseMap (m : LockMem τ F) (t : τ) : LockMem τ F :=
  { m with outer := m.outer.release t }

/-- Replace the lock of one entry. -/
def setInner (m : LockMem τ F) (e : EntryId) (lock : RwLock τ) : LockMem τ F :=
  { m with inner := Function.update m.inner e lock }

/-- The guard of a ring is dropped. -/
def releaseRing (m : LockMem τ F) (t : τ) (e : EntryId) : LockMem τ F :=
  m.setInner e ((m.inner e).release t)

end LockMem

/-- The point before the first lookup of a call. -/
def Request.atLookup : Request F → Pc F → Bool
  | .append _ _, .lookup _ => true
  | .range _ _ _, .idle => true
  | _, _ => false

/-- The call is an append. -/
def Request.isAppend : Request F → Bool
  | .append _ _ => true
  | .range _ _ _ => false

/-- Where an append goes on after the lookup of the fast path. -/
def afterLookup (tick : Nat) : Option EntryId → Pc F
  | some e => .touch tick e
  | none => .insert tick

/-- Where it goes on after the race check: on a hit the guard is dropped at once. -/
def afterRaceCheck (tick : Nat) (ring : RingBuffer F) : Option EntryId → LockPc F
  | some e => .mapUnlock (.touch tick e)
  | none => .choose tick ring

section Steps

variable [DecidableEq τ] [F64 F] (cfg : Config)

/-- The next access of `try_append(symbol, candle)`. -/
def lockAppend (t : τ) (ch : Choice) (symbol : Symbol) (candle : Candle F)
    (m : LockMem τ F) :
    LockPc F → Option (LockMem τ F × LockPc F)
  | .enter .idle =>
      if candle.isValid then
        some ({ m with data := m.data.bumpTick }, .enter (.lookup m.data.counters.tick))
      else some ({ m with data := m.data.reject },
        .enter (.appended (.error (.invalidCandle symbol))))
  | .enter (.lookup tick) =>
      (m.outer.read t).map fun l => ({ m with outer := l }, .mapRead (.lookup tick))
  | .mapRead (.lookup tick) =>
      some (m, .mapRelease (afterLookup tick (m.data.map.lookup symbol)))
  | .mapRelease p => some (m.releaseMap t, .enter p)
  | .enter (.touch tick e) =>
      some ({ m with data := m.data.touch tick e }, .enter (.push tick e))
  | .enter (.push tick e) =>
      ((m.inner e).write t).map fun l => (m.setInner e l, .flagCheck tick e)
  | .flagCheck tick e =>
      match m.data.heap[e]? with
      | some cell =>
          some (m, if cell.removed then .ringRelease e (.insert tick)
            else .ringPush tick e)
      | none => none
  | .ringPush _ e =>
      match m.data.heap[e]? with
      | some cell =>
          some ({ m with data := m.data.push e cell candle }, .ringRelease e .publish)
      | none => none
  | .ringRelease e p => some (m.releaseRing t e, .enter p)
  | .enter (.insert tick) =>
      match newRing cfg candle with
      | none => some (m, .enter .panicked)
      | some ring => (m.outer.write t).map fun l =>
          ({ m with outer := l }, .raceCheck tick ring)
  | .raceCheck tick ring =>
      some (m, afterRaceCheck tick ring (m.data.map.lookup symbol))
  | .choose tick ring => (m.data.choose cfg ch tick ring).map fun p => (m, .enter p)
  | .mapUnlock p => some (m.releaseMap t, .enter p)
  | .enter (.evict fresh key e) =>
      ((m.inner e).write t).map fun l => (m.setInner e l, .flagSet fresh key e)
  | .flagSet fresh key e =>
      match m.data.heap[e]? with
      | some _ => some ({ m with data := m.data.mark e }, .ringCopy fresh key e)
      | none => none
  | .ringCopy fresh key e =>
      match m.data.heap[e]? with
      | some cell => some (m, .ringRelease e (.spill fresh ⟨key, e, cell.buf.toVec⟩))
      | none => none
  | .enter (.spill fresh v) =>
      (m.data.beginSpill cfg ch fresh v).map fun r =>
        ({ m with data := r.1 }, .enter r.2)
  | .enter (.writing fresh v name) =>
      match ch.io with
      | .ok =>
          some ({ m with data := m.data.write cfg v name },
            .enter (.install fresh (some v)))
      | .failAfter err => some (m, .enter (.abort v err))
      | .failBefore _ => none
  | .enter (.install fresh victim) =>
      some ({ m with data := m.data.install symbol fresh victim }, .mapUnlock .publish)
  | .enter (.abort v err) =>
      some ({ m with data := m.data.abort v },
        .mapUnlock (.appended
          (.error (.evictionSpillFailed v.key v.snapshot.length err))))
  | .enter .publish =>
      some ({ m with data := m.data.publish }, .enter (.appended (.ok ())))
  | _ => none

/-- The next access of `range(symbol, from_ts, to_ts)`. -/
def lockRange (t : τ) (o : OsOrder F) (symbol : Symbol) (fromTs toTs : Int)
    (m : LockMem τ F) :
    LockPc F → Option (LockMem τ F × LockPc F)
  | .enter .idle => (m.outer.read t).map fun l => ({ m with outer := l }, .mapRead .idle)
  | .mapRead .idle => some (m, .mapRelease (.rangeHot (m.data.map.lookup symbol)))
  | .mapRelease p => some (m.releaseMap t, .enter p)
  | .enter (.rangeHot none) => some (m, .enter (.rangeCold []))
  | .enter (.rangeHot (some e)) =>
      ((m.inner e).read t).map fun l => (m.setInner e l, .ringRead e)
  | .ringRead e =>
      match m.data.heap[e]? with
      | some cell => some (m, .ringRelease e (.rangeCold (cell.buf.range fromTs toTs)))
      | none => none
  | .ringRelease e p => some (m.releaseRing t e, .enter p)
  | .enter (.rangeCold hot) =>
      some (m, .enter (.ranged
        (if cfg.dataDir then
          Store.joinHotCold hot (queryCold cfg.uni o m.data.files symbol fromTs toTs)
        else hot)))
  | _ => none

/-- The next access of a thread. -/
def lockNext (order : τ → OsOrder F) (req : τ → Request F) (t : τ) (ch : Choice)
    (m : LockMem τ F) (pc : LockPc F) : Option (LockMem τ F × LockPc F) :=
  match req t with
  | .append symbol candle => lockAppend cfg t ch symbol candle m pc
  | .range symbol fromTs toTs => lockRange cfg t (order t) symbol fromTs toTs m pc

end Steps

/-- Everything an access can do, with the guard of each branch. -/
inductive LockMove [DecidableEq τ] [F64 F] (cfg : Config) (o : OsOrder F) (t : τ)
    (ch : Choice) (m : LockMem τ F) :
    Request F → LockPc F → LockMem τ F → LockPc F → Prop where
  | begin (symbol : Symbol) (candle : Candle F) : candle.isValid = true →
      LockMove cfg o t ch m (.append symbol candle) (.enter .idle)
        { m with data := m.data.bumpTick } (.enter (.lookup m.data.counters.tick))
  | reject (symbol : Symbol) (candle : Candle F) : candle.isValid = false →
      LockMove cfg o t ch m (.append symbol candle) (.enter .idle)
        { m with data := m.data.reject }
        (.enter (.appended (.error (.invalidCandle symbol))))
  | readMap (r : Request F) (p : Pc F) (l : RwLock τ) : r.atLookup p = true →
      m.outer.read t = some l →
      LockMove cfg o t ch m r (.enter p) { m with outer := l } (.mapRead p)
  | get (symbol : Symbol) (candle : Candle F) (tick : Nat) :
      LockMove cfg o t ch m (.append symbol candle) (.mapRead (.lookup tick)) m
        (.mapRelease (afterLookup tick (m.data.map.lookup symbol)))
  | getRange (symbol : Symbol) (fromTs toTs : Int) :
      LockMove cfg o t ch m (.range symbol fromTs toTs) (.mapRead .idle) m
        (.mapRelease (.rangeHot (m.data.map.lookup symbol)))
  | releaseMap (r : Request F) (p : Pc F) :
      LockMove cfg o t ch m r (.mapRelease p) (m.releaseMap t) (.enter p)
  | touch (symbol : Symbol) (candle : Candle F) (tick : Nat) (e : EntryId) :
      LockMove cfg o t ch m (.append symbol candle) (.enter (.touch tick e))
        { m with data := m.data.touch tick e } (.enter (.push tick e))
  | lockRing (symbol : Symbol) (candle : Candle F) (tick : Nat) (e : EntryId)
      (l : RwLock τ) :
      (m.inner e).write t = some l →
      LockMove cfg o t ch m (.append symbol candle) (.enter (.push tick e))
        (m.setInner e l) (.flagCheck tick e)
  | flagged (symbol : Symbol) (candle : Candle F) (tick : Nat) (e : EntryId)
      (cell : Cell F) :
      m.data.heap[e]? = some cell → cell.removed = true →
      LockMove cfg o t ch m (.append symbol candle) (.flagCheck tick e) m
        (.ringRelease e (.insert tick))
  | live (symbol : Symbol) (candle : Candle F) (tick : Nat) (e : EntryId)
      (cell : Cell F) :
      m.data.heap[e]? = some cell → cell.removed = false →
      LockMove cfg o t ch m (.append symbol candle) (.flagCheck tick e) m
        (.ringPush tick e)
  | push (symbol : Symbol) (candle : Candle F) (tick : Nat) (e : EntryId)
      (cell : Cell F) :
      m.data.heap[e]? = some cell →
      LockMove cfg o t ch m (.append symbol candle) (.ringPush tick e)
        { m with data := m.data.push e cell candle } (.ringRelease e .publish)
  | releaseRing (r : Request F) (e : EntryId) (p : Pc F) :
      LockMove cfg o t ch m r (.ringRelease e p) (m.releaseRing t e) (.enter p)
  | panic (symbol : Symbol) (candle : Candle F) (tick : Nat) :
      newRing cfg candle = none →
      LockMove cfg o t ch m (.append symbol candle) (.enter (.insert tick)) m
        (.enter .panicked)
  | lockMap (symbol : Symbol) (candle : Candle F) (tick : Nat) (ring : RingBuffer F)
      (l : RwLock τ) : newRing cfg candle = some ring → m.outer.write t = some l →
      LockMove cfg o t ch m (.append symbol candle) (.enter (.insert tick))
        { m with outer := l } (.raceCheck tick ring)
  | raceHit (symbol : Symbol) (candle : Candle F) (tick : Nat) (ring : RingBuffer F)
      (e : EntryId) : m.data.map.lookup symbol = some e →
      LockMove cfg o t ch m (.append symbol candle) (.raceCheck tick ring) m
        (.mapUnlock (.touch tick e))
  | raceMiss (symbol : Symbol) (candle : Candle F) (tick : Nat) (ring : RingBuffer F) :
      m.data.map.lookup symbol = none →
      LockMove cfg o t ch m (.append symbol candle) (.raceCheck tick ring) m
        (.choose tick ring)
  | choose (symbol : Symbol) (candle : Candle F) (tick : Nat) (ring : RingBuffer F)
      (p : Pc F) :
      m.data.choose cfg ch tick ring = some p →
      LockMove cfg o t ch m (.append symbol candle) (.choose tick ring) m (.enter p)
  | unlockMap (r : Request F) (p : Pc F) :
      LockMove cfg o t ch m r (.mapUnlock p) (m.releaseMap t) (.enter p)
  | lockVictim (symbol : Symbol) (candle : Candle F) (fresh : Entry F) (key : Symbol)
      (e : EntryId) (l : RwLock τ) : (m.inner e).write t = some l →
      LockMove cfg o t ch m (.append symbol candle) (.enter (.evict fresh key e))
        (m.setInner e l) (.flagSet fresh key e)
  | mark (symbol : Symbol) (candle : Candle F) (fresh : Entry F) (key : Symbol)
      (e : EntryId) (cell : Cell F) : m.data.heap[e]? = some cell →
      LockMove cfg o t ch m (.append symbol candle) (.flagSet fresh key e)
        { m with data := m.data.mark e } (.ringCopy fresh key e)
  | copy (symbol : Symbol) (candle : Candle F) (fresh : Entry F) (key : Symbol)
      (e : EntryId) (cell : Cell F) : m.data.heap[e]? = some cell →
      LockMove cfg o t ch m (.append symbol candle) (.ringCopy fresh key e) m
        (.ringRelease e (.spill fresh ⟨key, e, cell.buf.toVec⟩))
  | spill (symbol : Symbol) (candle : Candle F) (fresh : Entry F) (v : Victim F)
      (d : Data F) (p : Pc F) : m.data.beginSpill cfg ch fresh v = some (d, p) →
      LockMove cfg o t ch m (.append symbol candle) (.enter (.spill fresh v))
        { m with data := d } (.enter p)
  | write (symbol : Symbol) (candle : Candle F) (fresh : Entry F) (v : Victim F)
      (name : List Char) : ch.io = .ok →
      LockMove cfg o t ch m (.append symbol candle) (.enter (.writing fresh v name))
        { m with data := m.data.write cfg v name } (.enter (.install fresh (some v)))
  | failWrite (symbol : Symbol) (candle : Candle F) (fresh : Entry F) (v : Victim F)
      (name : List Char) (err : SpillError) : ch.io = .failAfter err →
      LockMove cfg o t ch m (.append symbol candle) (.enter (.writing fresh v name)) m
        (.enter (.abort v err))
  | install (symbol : Symbol) (candle : Candle F) (fresh : Entry F)
      (victim : Option (Victim F)) :
      LockMove cfg o t ch m (.append symbol candle) (.enter (.install fresh victim))
        { m with data := m.data.install symbol fresh victim } (.mapUnlock .publish)
  | abort (symbol : Symbol) (candle : Candle F) (v : Victim F) (err : SpillError) :
      LockMove cfg o t ch m (.append symbol candle) (.enter (.abort v err))
        { m with data := m.data.abort v }
        (.mapUnlock (.appended
          (.error (.evictionSpillFailed v.key v.snapshot.length err))))
  | publish (symbol : Symbol) (candle : Candle F) :
      LockMove cfg o t ch m (.append symbol candle) (.enter .publish)
        { m with data := m.data.publish } (.enter (.appended (.ok ())))
  | noHot (symbol : Symbol) (fromTs toTs : Int) :
      LockMove cfg o t ch m (.range symbol fromTs toTs) (.enter (.rangeHot none)) m
        (.enter (.rangeCold []))
  | readRing (symbol : Symbol) (fromTs toTs : Int) (e : EntryId) (l : RwLock τ) :
      (m.inner e).read t = some l →
      LockMove cfg o t ch m (.range symbol fromTs toTs) (.enter (.rangeHot (some e)))
        (m.setInner e l) (.ringRead e)
  | hot (symbol : Symbol) (fromTs toTs : Int) (e : EntryId) (cell : Cell F) :
      m.data.heap[e]? = some cell →
      LockMove cfg o t ch m (.range symbol fromTs toTs) (.ringRead e) m
        (.ringRelease e (.rangeCold (cell.buf.range fromTs toTs)))
  | cold (symbol : Symbol) (fromTs toTs : Int) (hot : List (Candle F)) :
      LockMove cfg o t ch m (.range symbol fromTs toTs) (.enter (.rangeCold hot)) m
        (.enter (.ranged
          (if cfg.dataDir then
            Store.joinHotCold hot (queryCold cfg.uni o m.data.files symbol fromTs toTs)
          else hot)))

section Moves

variable [DecidableEq τ] [F64 F] {cfg : Config} {o : OsOrder F} {t : τ} {ch : Choice}
  {symbol : Symbol} {m m' : LockMem τ F} {p p' : LockPc F}

theorem lockAppend_enter {candle : Candle F} {q : Pc F}
    (h : lockAppend cfg t ch symbol candle m (.enter q) = some (m', p')) :
    LockMove cfg o t ch m (.append symbol candle) (.enter q) m' p' := by
  cases q with
  | idle =>
      rw [lockAppend] at h
      split at h
      · next hvalid =>
        cases h
        exact .begin symbol candle hvalid
      · next hvalid =>
        cases h
        exact .reject symbol candle (Bool.eq_false_iff.2 hvalid)
  | lookup tick =>
      obtain ⟨l, hl, heq⟩ := Option.map_eq_some_iff.1 h
      cases heq
      exact .readMap _ _ l rfl hl
  | touch tick e =>
      cases h
      exact .touch symbol candle tick e
  | push tick e =>
      obtain ⟨l, hl, heq⟩ := Option.map_eq_some_iff.1 h
      cases heq
      exact .lockRing symbol candle tick e l hl
  | insert tick =>
      rw [lockAppend] at h
      split at h
      · next hring =>
        cases h
        exact .panic symbol candle tick hring
      · next ring hring =>
        obtain ⟨l, hl, heq⟩ := Option.map_eq_some_iff.1 h
        cases heq
        exact .lockMap symbol candle tick ring l hring hl
  | evict fresh key e =>
      obtain ⟨l, hl, heq⟩ := Option.map_eq_some_iff.1 h
      cases heq
      exact .lockVictim symbol candle fresh key e l hl
  | spill fresh v =>
      obtain ⟨⟨d, q⟩, hspill, heq⟩ := Option.map_eq_some_iff.1 h
      cases heq
      exact .spill symbol candle fresh v d q hspill
  | writing fresh v name =>
      rw [lockAppend] at h
      split at h
      · next hio =>
        cases h
        exact .write symbol candle fresh v name hio
      · next err hio =>
        cases h
        exact .failWrite symbol candle fresh v name err hio
      · cases h
  | install fresh victim =>
      cases h
      exact .install symbol candle fresh victim
  | abort v err =>
      cases h
      exact .abort symbol candle v err
  | publish =>
      cases h
      exact .publish symbol candle
  | rangeHot | rangeCold | appended | ranged | panicked => cases h

theorem lockAppend_move {candle : Candle F}
    (h : lockAppend cfg t ch symbol candle m p = some (m', p')) :
    LockMove cfg o t ch m (.append symbol candle) p m' p' := by
  cases p with
  | enter q => exact lockAppend_enter h
  | mapRead q =>
      cases q with
      | lookup tick =>
          cases h
          exact .get symbol candle tick
      | _ => cases h
  | mapRelease q =>
      cases h
      exact .releaseMap _ q
  | raceCheck tick ring =>
      cases hfound : m.data.map.lookup symbol with
      | some e =>
          rw [lockAppend, hfound] at h
          cases h
          exact .raceHit symbol candle tick ring e hfound
      | none =>
          rw [lockAppend, hfound] at h
          cases h
          exact .raceMiss symbol candle tick ring hfound
  | choose tick ring =>
      obtain ⟨q, hq, heq⟩ := Option.map_eq_some_iff.1 h
      cases heq
      exact .choose symbol candle tick ring q hq
  | mapUnlock q =>
      cases h
      exact .unlockMap _ q
  | flagCheck tick e =>
      rw [lockAppend] at h
      split at h
      · next cell hcell =>
        by_cases hrem : cell.removed = true
        · rw [if_pos hrem] at h
          cases h
          exact .flagged symbol candle tick e cell hcell hrem
        · rw [if_neg hrem] at h
          cases h
          exact .live symbol candle tick e cell hcell (Bool.eq_false_iff.2 hrem)
      · cases h
  | ringPush tick e =>
      rw [lockAppend] at h
      split at h
      · next cell hcell =>
        cases h
        exact .push symbol candle tick e cell hcell
      · cases h
  | flagSet fresh key e =>
      rw [lockAppend] at h
      split at h
      · next cell hcell =>
        cases h
        exact .mark symbol candle fresh key e cell hcell
      · cases h
  | ringCopy fresh key e =>
      rw [lockAppend] at h
      split at h
      · next cell hcell =>
        cases h
        exact .copy symbol candle fresh key e cell hcell
      · cases h
  | ringRead e => cases h
  | ringRelease e q =>
      cases h
      exact .releaseRing _ e q

theorem lockRange_move {fromTs toTs : Int}
    (h : lockRange cfg t o symbol fromTs toTs m p = some (m', p')) :
    LockMove cfg o t ch m (.range symbol fromTs toTs) p m' p' := by
  cases p with
  | enter q =>
      cases q with
      | idle =>
          obtain ⟨l, hl, heq⟩ := Option.map_eq_some_iff.1 h
          cases heq
          exact .readMap _ _ l rfl hl
      | rangeHot found =>
          cases found with
          | none =>
              cases h
              exact .noHot symbol fromTs toTs
          | some e =>
              obtain ⟨l, hl, heq⟩ := Option.map_eq_some_iff.1 h
              cases heq
              exact .readRing symbol fromTs toTs e l hl
      | rangeCold hot =>
          cases h
          exact .cold symbol fromTs toTs hot
      | _ => cases h
  | mapRead q =>
      cases q with
      | idle =>
          cases h
          exact .getRange symbol fromTs toTs
      | _ => cases h
  | mapRelease q =>
      cases h
      exact .releaseMap _ q
  | ringRead e =>
      rw [lockRange] at h
      split at h
      · next cell hcell =>
        cases h
        exact .hot symbol fromTs toTs e cell hcell
      · cases h
  | ringRelease e q =>
      cases h
      exact .releaseRing _ e q
  | _ => cases h

/-- Inversion of an access. -/
theorem lockNext_move {order : τ → OsOrder F} {req : τ → Request F}
    (h : lockNext cfg order req t ch m p = some (m', p')) :
    LockMove cfg (order t) t ch m (req t) p m' p' := by
  rw [lockNext] at h
  cases hreq : req t with
  | append symbol candle =>
      rw [hreq] at h
      exact lockAppend_move h
  | range symbol fromTs toTs =>
      rw [hreq] at h
      exact lockRange_move h

end Moves

/-- No call has begun and no lock is taken. -/
def lockStart : World (LockMem τ F) (LockPc F) τ := ⟨.new, fun _ => .enter .idle⟩

end Candlestore.Concurrent
