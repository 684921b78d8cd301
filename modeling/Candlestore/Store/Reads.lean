import Candlestore.Store.Interleaving

/-!
# Hot reads racing with appends and evictions

`last_n` and `candle_count` read the map, drop its lock, and then read the ring of
the entry they found.  In between the entry can grow, be evicted and be replaced
by a new one.  The answer is still the one that the store had at some moment
between the two reads: an entry that has left the map keeps the ring it had in the
last moment at which it was there.
-/

namespace Candlestore.Concurrent

open Lib

variable {τ F : Type}

/-- A query about the ring of one symbol. -/
inductive HotQuery where
  | lastN (symbol : Symbol) (n : Nat)
  | candleCount (symbol : Symbol)

/-- What `last_n` and `candle_count` return. -/
inductive HotAnswer (F : Type) where
  | candles (result : List (Candle F))
  | count (result : Nat)
  deriving DecidableEq

namespace HotQuery

/-- The symbol asked for. -/
def symbol : HotQuery → Symbol
  | .lastN symbol _ => symbol
  | .candleCount symbol => symbol

/-- `buf.read().last_n(n)` and `buf.read().len()`. -/
def ofRing (q : HotQuery) (buf : RingBuffer F) : HotAnswer F :=
  match q with
  | .lastN _ n => .candles (buf.lastN n)
  | .candleCount _ => .count buf.len

/-- The answer for a symbol that is not in the map. -/
def missing (q : HotQuery) : HotAnswer F :=
  match q with
  | .lastN _ _ => .candles []
  | .candleCount _ => .count 0

/-- The answer if nobody else moves. -/
def answer (q : HotQuery) (m : Mem τ F) : HotAnswer F :=
  match m.map.lookup q.symbol with
  | none => q.missing
  | some e => match m.heap[e]? with
      | some cell => q.ofRing cell.buf
      | none => q.missing

/-- A ring answers by its candles. -/
theorem ofRing_congr (q : HotQuery) {buf buf' : RingBuffer F}
    (h : buf.toVec = buf'.toVec) : q.ofRing buf = q.ofRing buf' := by
  cases q with
  | lastN symbol n =>
      rw [ofRing, ofRing, RingBuffer.lastN_eq_rtake, RingBuffer.lastN_eq_rtake, h]
  | candleCount symbol =>
      rw [ofRing, ofRing, ← RingBuffer.length_toVec, ← RingBuffer.length_toVec, h]

theorem answer_of_mapped (q : HotQuery) {m : Mem τ F} {e : EntryId} {cell : Cell F}
    (hmap : m.map.lookup q.symbol = some e) (hcell : m.heap[e]? = some cell) :
    q.answer m = q.ofRing cell.buf := by
  simp only [answer, hmap, hcell]

end HotQuery

/-- A read, from its map lookup to its answer. -/
inductive ReadPc (F : Type) where
  | idle
  | found (entry : Option EntryId)
  | done (answer : HotAnswer F)
  deriving DecidableEq

/-- The store with its callers and one hot read. -/
structure Queried (τ F : Type) where
  world : World (Mem τ F) (Pc F) τ
  reader : ReadPc F

/-- Nothing has happened yet. -/
def Queried.start : Queried τ F := ⟨Concurrent.start, .idle⟩

/-- A step of a call or of the read. -/
inductive ReadAct (τ : Type) where
  | call (a : Turn τ Choice)
  /-- The next step of the read. -/
  | read

section Steps

variable [DecidableEq τ] [F64 F] (cfg : Config) (order : τ → OsOrder F)
  (req : τ → Request F) (q : HotQuery)

/-- The read looks the entry up under the lock of the map and copies from its ring
under the lock of that. -/
def readStep (s : Queried τ F) : ReadAct τ → Option (Queried τ F)
  | .call a => (turn (next cfg order req) s.world a).map fun world =>
      { s with world := world }
  | .read =>
      match s.reader with
      | .idle =>
          if s.world.mem.lock.isSome then none
          else some { s with reader := .found (s.world.mem.map.lookup q.symbol) }
      | .found none => some { s with reader := .done q.missing }
      | .found (some e) =>
          match s.world.mem.heap[e]? with
          | some cell => some { s with reader := .done (q.ofRing cell.buf) }
          | none => none
      | .done _ => none

variable {cfg order req q}

/-- Inversion of a step. -/
theorem readStep_cases {s s' : Queried τ F} {act : ReadAct τ}
    (hstep : readStep cfg order req q s act = some s') :
    (∃ a world, turn (next cfg order req) s.world a = some world ∧
      s' = { s with world := world }) ∨
    (s.reader = .idle ∧
      s' = { s with reader := .found (s.world.mem.map.lookup q.symbol) }) ∨
    (s.reader = .found none ∧ s' = { s with reader := .done q.missing }) ∨
    ∃ e cell, s.reader = .found (some e) ∧ s.world.mem.heap[e]? = some cell ∧
      s' = { s with reader := .done (q.ofRing cell.buf) } := by
  cases act with
  | call a =>
      obtain ⟨world, hturn, rfl⟩ := Option.map_eq_some_iff.1 hstep
      exact .inl ⟨a, world, hturn, rfl⟩
  | read =>
      unfold readStep at hstep
      cases hreader : s.reader with
      | idle =>
          simp only [hreader, Option.ite_none_left_eq_some, Option.some.injEq] at hstep
          exact .inr (.inl ⟨rfl, hstep.2.symm⟩)
      | found entry =>
          cases entry with
          | none =>
              simp only [hreader, Option.some.injEq] at hstep
              exact .inr (.inr (.inl ⟨rfl, hstep.symm⟩))
          | some e =>
              simp only [hreader] at hstep
              cases hcell : s.world.mem.heap[e]? with
              | none =>
                  rw [hcell] at hstep
                  cases hstep
              | some cell =>
                  rw [hcell] at hstep
                  cases hstep
                  exact .inr (.inr (.inr ⟨e, cell, rfl, hcell, rfl⟩))
      | done answer =>
          simp only [hreader] at hstep
          cases hstep

end Steps

/-! ## An entry keeps its answer when it leaves the map -/

/-- A range query leaves the memory alone. -/
theorem rangeStep_mem [F64 F] {cfg : Config} {o : OsOrder F} {symbol : Symbol}
    {fromTs toTs : Int} {m m' : Mem τ F} {p p' : Pc F}
    (hstep : rangeStep cfg o symbol fromTs toTs m p = some (m', p')) : m' = m := by
  cases p with
  | idle =>
      rw [rangeStep] at hstep
      split at hstep
      · cases hstep
      · cases hstep
        rfl
  | rangeHot found =>
      cases found with
      | none =>
          cases hstep
          rfl
      | some e =>
          rw [rangeStep] at hstep
          split at hstep
          · cases hstep
            rfl
          · cases hstep
  | rangeCold hot =>
      cases hstep
      rfl
  | _ => cases hstep

section Entries

variable [DecidableEq τ] [F64 F] {cfg : Config} {order : τ → OsOrder F}
  {req : τ → Request F} {t : τ} {ch : Choice} {m m' : Mem τ F} {p p' : Pc F}

/-- Only the end of an eviction takes an entry out of the map, and the entry is
flagged by then. -/
theorem appendStep_lookup {symbol key : Symbol} {candle : Candle F} {e : EntryId}
    (hok : AppendOk cfg t symbol candle m p)
    (hstep : appendStep cfg t ch symbol candle m p = some (m', p'))
    (hmap : m.map.lookup key = some e) :
    m'.map.lookup key = some e ∨ ∃ cell, m.heap[e]? = some cell ∧
      cell.removed = true := by
  have hne : m.map.lookup symbol = none → key ≠ symbol := by
    rintro hmissing rfl
    rw [hmap] at hmissing
    cases hmissing
  cases appendStep_move hstep with
  | install fresh =>
      left
      show (m.map.insert symbol m.heap.length).lookup key = some e
      rw [AList.lookup_insert_ne (hne hok.1.missing), hmap]
  | replace fresh v =>
      by_cases hkey : key = v.key
      · obtain ⟨cell, hcell, hrem, -⟩ := hok.2.1.cell
        rw [hkey, hok.2.1.mapped] at hmap
        cases hmap
        exact .inr ⟨cell, hcell, hrem⟩
      · left
        show ((m.map.erase v.key).insert symbol m.heap.length).lookup key = some e
        rw [AList.lookup_insert_ne (hne hok.1.missing), AList.lookup_erase_ne hkey, hmap]
  | _ => exact .inl hmap

theorem next_lookup {key : Symbol} {e : EntryId} (hok : CallOk cfg t m req p)
    (hstep : next cfg order req t ch m p = some (m', p'))
    (hmap : m.map.lookup key = some e) :
    m'.map.lookup key = some e ∨ ∃ cell, m.heap[e]? = some cell ∧
      cell.removed = true := by
  rw [CallOk] at hok
  rw [next] at hstep
  cases hreq : req t with
  | append symbol candle =>
      rw [hreq] at hok hstep
      exact appendStep_lookup hok hstep hmap
  | range symbol fromTs toTs =>
      rw [hreq] at hstep
      left
      rw [rangeStep_mem hstep]
      exact hmap

/-- The entry `e` has left the map of `symbol`. -/
def Gone (m : Mem τ F) (symbol : Symbol) (e : EntryId) (ring : List (Candle F)) : Prop :=
  ∃ t, .evicted t e symbol ring ∈ m.hist

/-- A mapped entry stays mapped, or leaves the map with the ring it had. -/
theorem next_mapped_or_gone {symbol : Symbol} {e : EntryId} {cell : Cell F}
    (h : MemInv cfg m) (hok : CallOk cfg t m req p)
    (hstep : next cfg order req t ch m p = some (m', p'))
    (hmap : m.map.lookup symbol = some e) (hcell : m.heap[e]? = some cell) :
    m'.map.lookup symbol = some e ∨ Gone m' symbol e cell.buf.toVec := by
  have hsound := sound_next h hok hstep
  obtain ⟨evs, heff⟩ := hsound.effect
  obtain ⟨cell', hcell', hceff⟩ := heff.cells e cell hcell
  have hsym : cell'.symbol = symbol := hceff.symbol.trans (h.flag.symbol_eq hmap hcell)
  rcases next_lookup hok hstep hmap with hstill | ⟨flagged, hflagged, hrem⟩
  · exact .inl hstill
  · rw [hcell] at hflagged
    cases hflagged
    by_cases hgone : m'.map.lookup symbol = some e
    · exact .inl hgone
    · right
      have hevicted := hsound.inv.ring.evicted e cell' hcell' (by rw [hsym]; exact hgone)
      rw [hsym, hceff.frozen hrem] at hevicted
      exact hevicted

end Entries

/-! ## The moment of a read -/

section Runs

variable [DecidableEq τ] [F64 F] {cfg : Config} {order : τ → OsOrder F}
  {req : τ → Request F} {q : HotQuery}

/-- Among the states of the run there is one, between the two reads of the query, in
which the store alone would have answered `x`. -/
def Moment (cfg : Config) (order : τ → OsOrder F) (req : τ → Request F) (q : HotQuery)
    (as : List (ReadAct τ)) (x : HotAnswer F) : Prop :=
  ∃ before after s entry, as = before ++ after ∧
    exec (readStep cfg order req q) Queried.start before = some s ∧
    s.reader = .found entry ∧ q.answer s.world.mem = x

theorem Moment.snoc {as : List (ReadAct τ)} {x : HotAnswer F}
    (h : Moment cfg order req q as x) (a : ReadAct τ) :
    Moment cfg order req q (as ++ [a]) x := by
  obtain ⟨before, after, s, entry, rfl, hrun, hs, hx⟩ := h
  exact ⟨before, after ++ [a], s, entry, List.append_assoc .., hrun, hs, hx⟩

/-- The present is such a moment while the query is under way. -/
theorem Moment.now {as : List (ReadAct τ)} {s : Queried τ F} {entry : Option EntryId}
    (hrun : exec (readStep cfg order req q) Queried.start as = some s)
    (hs : s.reader = .found entry) : Moment cfg order req q as (q.answer s.world.mem) :=
  ⟨as, [], s, entry, (List.append_nil as).symm, hrun, hs, rfl⟩

/-- What is known of the read at each of its points. -/
def ReadOk (cfg : Config) (order : τ → OsOrder F) (req : τ → Request F) (q : HotQuery)
    (as : List (ReadAct τ)) (m : Mem τ F) : ReadPc F → Prop
  | .idle => True
  | .found none => Moment cfg order req q as q.missing
  | .found (some e) => m.map.lookup q.symbol = some e ∨
      ∃ ring, Gone m q.symbol e ring ∧
        ∀ buf : RingBuffer F, buf.toVec = ring → Moment cfg order req q as (q.ofRing buf)
  | .done x => Moment cfg order req q as x

/-- The invariant of the calls, and what the read can have seen. -/
structure QueriedInv (cfg : Config) (order : τ → OsOrder F) (req : τ → Request F)
    (q : HotQuery) (as : List (ReadAct τ)) (s : Queried τ F) : Prop where
  world : WorldInv cfg req s.world
  read : ReadOk cfg order req q as s.world.mem s.reader

theorem QueriedInv.start : QueriedInv cfg order req q [] Queried.start :=
  ⟨WorldInv.start, trivial⟩

theorem QueriedInv.call {as : List (ReadAct τ)} {s : Queried τ F} {act : ReadAct τ}
    {a : Turn τ Choice} {world : World (Mem τ F) (Pc F) τ}
    (h : QueriedInv cfg order req q as s)
    (hrun : exec (readStep cfg order req q) Queried.start as = some s)
    (hturn : turn (next cfg order req) s.world a = some world) :
    QueriedInv cfg order req q (as ++ [act]) { s with world := world } where
  world := h.world.step hturn
  read := by
    obtain ⟨m', p', hnext, rfl⟩ := turn_eq_some.1 hturn
    have hread := h.read
    show ReadOk cfg order req q (as ++ [act]) m' s.reader
    cases hreader : s.reader with
    | idle => trivial
    | done x =>
        rw [hreader] at hread
        exact hread.snoc act
    | found entry =>
        rw [hreader] at hread
        cases entry with
        | none => exact hread.snoc act
        | some e =>
            rcases hread with hmap | ⟨ring, ⟨u, hu⟩, hmoment⟩
            · obtain ⟨cell, hcell, -⟩ := h.world.mem.flag.mapped _ e hmap
              rcases next_mapped_or_gone h.world.mem
                (h.world.pcs _) hnext hmap hcell with
                hstill | hgone
              · exact .inl hstill
              · refine .inr ⟨_, hgone, ?_⟩
                intro buf hbuf
                rw [q.ofRing_congr hbuf, ← q.answer_of_mapped hmap hcell]
                exact (Moment.now hrun hreader).snoc act
            · obtain ⟨evs, heff⟩ := (sound_next h.world.mem (h.world.pcs _) hnext).effect
              refine .inr ⟨ring, ⟨u, ?_⟩, fun buf hbuf => (hmoment buf hbuf).snoc act⟩
              rw [heff.hist]
              exact List.mem_append_left _ hu

theorem QueriedInv.of_exec {as : List (ReadAct τ)} {s : Queried τ F}
    (hrun : exec (readStep cfg order req q) Queried.start as = some s) :
    QueriedInv cfg order req q as s := by
  refine exec_induction (P := QueriedInv cfg order req q) .start ?_ hrun
  intro as act s s' hs h hstep
  have hs' : exec (readStep cfg order req q) Queried.start (as ++ [act]) = some s' :=
    exec_append_eq_some.2 ⟨s, hs, exec_cons_eq_some.2 ⟨s', hstep, rfl⟩⟩
  have hread := h.read
  rcases readStep_cases hstep with ⟨a, world, hturn, rfl⟩ | ⟨hidle, rfl⟩ | ⟨hnone, rfl⟩ |
    ⟨e, cell, hsome, hcell, rfl⟩
  · exact h.call hs hturn
  · refine ⟨h.world, ?_⟩
    cases hfound : s.world.mem.map.lookup q.symbol with
    | none =>
        have hmoment := Moment.now hs' rfl
        rw [HotQuery.answer] at hmoment
        simp only [hfound] at hmoment
        exact hmoment
    | some e => exact .inl hfound
  · rw [hnone] at hread
    exact ⟨h.world, hread.snoc act⟩
  · rw [hsome] at hread
    refine ⟨h.world, ?_⟩
    show Moment cfg order req q (as ++ [act]) (q.ofRing cell.buf)
    rcases hread with hmap | ⟨ring, ⟨u, hu⟩, hmoment⟩
    · rw [← q.answer_of_mapped hmap hcell]
      exact (Moment.now hs hsome).snoc act
    · obtain ⟨-, cell', hcell', -, hring⟩ := h.world.mem.ring.snapshots u e _ ring hu
      rw [hcell] at hcell'
      cases hcell'
      exact (hmoment cell.buf hring).snoc act

/-- Whatever appends, evictions and queries do in between, a hot read returns what
the store alone would have answered at some moment after the read's lookup and
before its return. -/
theorem hot_read_linearizes (cfg : Config) (order : τ → OsOrder F) (req : τ → Request F)
    (q : HotQuery) (as : List (ReadAct τ)) (s : Queried τ F) (x : HotAnswer F)
    (hrun : exec (readStep cfg order req q) Queried.start as = some s)
    (hdone : s.reader = .done x) :
    ∃ before after s₁ entry, as = before ++ after ∧
      exec (readStep cfg order req q) Queried.start before = some s₁ ∧
      s₁.reader = .found entry ∧ q.answer s₁.world.mem = x := by
  have hread := (QueriedInv.of_exec hrun).read
  rw [hdone] at hread
  exact hread

/-- The entry of `A` is looked up, then evicted for `B`, and then read: the answer is
not the one of the present store, but the one before the eviction. -/
theorem hot_read_linearizes_evicted :
    let cfg : Config := ⟨1, 2, true, fun _ => false⟩
    let req : Fin 2 → Request ℚ :=
      fun t => .append (if t = 0 then ['A'] else ['B']) (flatCandle t 1)
    let q : HotQuery := .candleCount ['A']
    let go (t : Fin 2) (n : Nat) : List (ReadAct (Fin 2)) :=
      List.replicate n (.call ⟨t, ⟨['A'], .ok⟩⟩)
    let as := go 0 5 ++ [.read] ++ go 1 8 ++ [.read]
    ∃ s, exec (readStep cfg (fun _ => stableOrder) req q) Queried.start as = some s ∧
      s.reader = .done (.count 1) ∧ q.answer s.world.mem = .count 0 ∧
      ∃ before after s₁ entry, as = before ++ after ∧
        exec (readStep cfg (fun _ => stableOrder) req q) Queried.start before = some s₁ ∧
        s₁.reader = .found entry ∧ q.answer s₁.world.mem = .count 1 := by
  intro cfg req q go as
  obtain ⟨s, hrun, hs⟩ :=
    exists_exec (readStep cfg (fun _ => stableOrder) req q) Queried.start as
      (fun s => s.reader = .done (.count 1) ∧ q.answer s.world.mem = .count 0)
        (by decide +kernel)
  obtain ⟨hdone, hnow⟩ := of_decide_eq_true hs
  exact ⟨s, hrun, hdone, hnow,
    hot_read_linearizes cfg (fun _ => stableOrder) req q as s (.count 1) hrun hdone⟩

end Runs

end Candlestore.Concurrent
