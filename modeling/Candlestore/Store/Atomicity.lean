import Candlestore.Lib.Simulation
import Candlestore.Store.Locks
import Candlestore.Store.Progress

/-!
# The sections of the store are atomic

Each lock-protected section has one access at which it takes effect: the lookup
in the map, the load of the flag if it sends an append back and the push if it
does not, the race check on a hit and the choice of the victim on a miss, the
store of the victim's flag, the insertion, the clearing of the flag.  Every other
access is invisible in the atomic model: what it reads cannot change any more,
because the lock under which it is made keeps every thread out that could change
it.

So the accesses that take effect, in the order of the run, are a run of the
atomic model with the same data and the same results.
-/

namespace Candlestore.Concurrent

open Lib

variable {τ F : Type}

/-- The candles in the ring at an address. -/
def ringAt (heap : List (Cell F)) (e : EntryId) : List (Candle F) :=
  (heap[e]?.map fun cell => cell.buf.toVec).getD []

theorem ringAt_eq {heap : List (Cell F)} {e : EntryId} {cell : Cell F}
    (hcell : heap[e]? = some cell) : ringAt heap e = cell.buf.toVec := by
  rw [ringAt, hcell]
  rfl

/-! ## What a call holds -/

/-- How the ring is locked by a call that goes on at `p` when it has released it. -/
def Pc.ringAccess : Pc F → Access
  | .rangeCold _ => .shared
  | _ => .exclusive

namespace LockPc

/-- The point of the atomic model. -/
def abs (heap : List (Cell F)) : LockPc F → Pc F
  | .enter p => p
  | .mapRead p => p
  | .mapRelease p => p
  | .raceCheck tick _ => .insert tick
  | .choose tick _ => .insert tick
  | .mapUnlock p => p
  | .flagCheck tick e => .push tick e
  | .ringPush tick e => .push tick e
  | .flagSet fresh key e => .evict fresh key e
  | .ringCopy fresh key e => .spill fresh ⟨key, e, ringAt heap e⟩
  | .ringRead e => .rangeHot (some e)
  | .ringRelease _ p => p

/-- How many accesses of the call can come before the next one that takes effect. -/
def slack : LockPc F → Nat
  | .choose _ _ => 0
  | .ringPush _ _ => 0
  | .enter _ => 2
  | .mapRelease _ => 3
  | .mapUnlock _ => 3
  | .ringRelease _ _ => 3
  | .ringCopy _ _ _ => 4
  | _ => 1

theorem slack_le (p : LockPc F) : p.slack ≤ 4 := by
  cases p <;> exact Nat.le_of_ble_eq_true rfl

/-- How a thread at this point holds the lock of the map. -/
def outerAccess : LockPc F → Access
  | .enter p => if p.holds then .exclusive else .none
  | .mapRead _ => .shared
  | .mapRelease _ => .shared
  | .raceCheck _ _ => .exclusive
  | .choose _ _ => .exclusive
  | .mapUnlock _ => .exclusive
  | .flagSet _ _ _ => .exclusive
  | .ringCopy _ _ _ => .exclusive
  | .ringRelease _ p => if p.holds then .exclusive else .none
  | .flagCheck _ _ => .none
  | .ringPush _ _ => .none
  | .ringRead _ => .none

/-- The ring a call has locked, and how. -/
def ring? : LockPc F → Option (EntryId × Access)
  | .flagCheck _ e => some (e, .exclusive)
  | .ringPush _ e => some (e, .exclusive)
  | .flagSet _ _ e => some (e, .exclusive)
  | .ringCopy _ _ e => some (e, .exclusive)
  | .ringRead e => some (e, .shared)
  | .ringRelease e p => some (e, p.ringAccess)
  | _ => none

/-- How it holds the lock of the entry `e`. -/
def innerAccess (p : LockPc F) (e : EntryId) : Access :=
  match p.ring? with
  | some (e', access) => if e = e' then access else .none
  | none => .none

theorem innerAccess_of_ring {p : LockPc F} {e : EntryId} {access : Access}
    (h : p.ring? = some (e, access)) :
    p.innerAccess = Function.update (fun _ => .none) e access := by
  funext e'
  rw [innerAccess, h]
  by_cases he : e' = e
  · rw [he, Function.update_self]
    exact if_pos rfl
  · rw [Function.update_of_ne he]
    exact if_neg he

theorem innerAccess_of_none {p : LockPc F} (h : p.ring? = none) :
    p.innerAccess = fun _ => .none := by
  funext e
  rw [innerAccess, h]

theorem innerAccess_self {p : LockPc F} {e : EntryId} {access : Access}
    (h : p.ring? = some (e, access)) : p.innerAccess e = access := by
  rw [innerAccess_of_ring h, Function.update_self]

end LockPc

/-- What a call knows inside a section, beside the locks it holds. -/
def SectionOk (cfg : Config) (m : LockMem τ F) (r : Request F) [F64 F] : LockPc F → Prop
  | .mapRead p => r.atLookup p = true
  | .mapRelease p => p.holds = false
  | .raceCheck _ ring =>
      ∀ symbol candle, r = .append symbol candle → newRing cfg candle = some ring
  | .choose _ ring => ∀ symbol candle, r = .append symbol candle →
      newRing cfg candle = some ring ∧ m.data.map.lookup symbol = none
  | .mapUnlock p => p.holds = false ∧ r.isAppend = true
  | .ringPush _ e => ∃ cell, m.data.heap[e]? = some cell ∧ cell.removed = false
  | .ringCopy _ _ e => ∃ cell, m.data.heap[e]? = some cell
  | _ => True

section Effects

variable [DecidableEq τ] {t u : τ} {m m' : LockMem τ F}

/-- What the other calls see of an access of `t`. -/
structure LockEffect (t : τ) (m m' : LockMem τ F) : Prop where
  outer : ∀ u, u ≠ t → m'.outer.held u = m.outer.held u
  inner : ∀ e u, u ≠ t → (m'.inner e).held u = (m.inner e).held u
  cells : ∀ e cell, m.data.heap[e]? = some cell →
    ∃ cell', m'.data.heap[e]? = some cell' ∧
    (cell' = cell ∨ (m.inner e).held t = .exclusive ∨
      cell'.buf = cell.buf ∧ (cell'.removed = true → cell.removed = true))
  map : m'.data.map = m.data.map ∨ m.outer.held t = .exclusive

namespace LockEffect

theorem stay (t : τ) (m : LockMem τ F) : LockEffect t m m where
  outer := fun _ _ => rfl
  inner := fun _ _ _ => rfl
  cells := fun _ cell hcell => ⟨cell, hcell, .inl rfl⟩
  map := .inl rfl

/-- The map is locked or released. -/
theorem of_outer {l : RwLock τ} {access : Access}
    (h : l.held = Function.update m.outer.held t access) :
    LockEffect t m { m with outer := l } :=
  { stay t m with
    outer := fun u hu => by
      show l.held u = _
      rw [h, Function.update_of_ne hu] }

/-- A ring is locked or released. -/
theorem of_inner {e : EntryId} {l : RwLock τ} {access : Access}
    (h : l.held = Function.update (m.inner e).held t access) :
    LockEffect t m (m.setInner e l) :=
  { stay t m with
    inner := fun e' u hu => by
      by_cases he : e' = e
      · subst he
        simp only [LockMem.setInner, Function.update_self, h, Function.update_of_ne hu]
      · simp only [LockMem.setInner, Function.update_of_ne he] }

/-- One entry is updated. -/
theorem of_modify {d : Data F} {e : EntryId} {f : Cell F → Cell F}
    (hheap : d.heap = m.data.heap.modify e f) (hmap : d.map = m.data.map)
    (hf : (m.inner e).held t = .exclusive ∨ ∀ cell, (f cell).buf = cell.buf ∧
      ((f cell).removed = true → cell.removed = true)) :
    LockEffect t m { m with data := d } :=
  { stay t m with
    cells := by
      intro e' cell hcell
      show ∃ cell', d.heap[e']? = some cell' ∧ _
      rw [hheap, List.getElem?_modify, hcell]
      by_cases he : e = e'
      · subst he
        refine ⟨f cell, by simp, ?_⟩
        rcases hf with hheld | hf
        · exact .inr (.inl hheld)
        · exact .inr (.inr (hf cell))
      · exact ⟨cell, by simp [he], .inl rfl⟩
    map := .inl hmap }

/-- The entries stay as they are and new ones are added. -/
theorem of_heap {d : Data F} (cells : List (Cell F))
    (hheap : d.heap = m.data.heap ++ cells)
    (hmap : d.map = m.data.map ∨ m.outer.held t = .exclusive) :
    LockEffect t m { m with data := d } :=
  { stay t m with
    cells := by
      intro e cell hcell
      refine ⟨cell, ?_, .inl rfl⟩
      show d.heap[e]? = some cell
      rw [hheap, List.getElem?_append_left (List.getElem?_eq_some_iff.1 hcell).1, hcell]
    map := hmap }

variable (h : LockEffect t m m') (hu : u ≠ t)
include h hu

/-- Under the write lock of its ring an entry keeps what another call sees. -/
theorem cell_of_exclusive {e : EntryId} {cell : Cell F}
    (hcell : m.data.heap[e]? = some cell) (hheld : (m.inner e).held u = .exclusive) :
    ∃ cell', m'.data.heap[e]? = some cell' ∧ cell'.buf = cell.buf ∧
      (cell'.removed = true → cell.removed = true) := by
  obtain ⟨cell', hcell', heff⟩ := h.cells e cell hcell
  refine ⟨cell', hcell', ?_⟩
  rcases heff with rfl | hexcl | heff
  · exact ⟨rfl, id⟩
  · rw [RwLock.held_eq_none_of_exclusive hexcl hu] at hheld
    cases hheld
  · exact heff

theorem map_of_exclusive (hheld : m.outer.held u = .exclusive) :
    m'.data.map = m.data.map := by
  rcases h.map with hmap | hexcl
  · exact hmap
  · rw [RwLock.held_eq_none_of_exclusive hexcl hu] at hheld
    cases hheld

end LockEffect

theorem held_release_of_holds {q : Pc F} (hq : q.holds = false) :
    (m.outer.release t).held =
      Function.update m.outer.held t (LockPc.enter q : LockPc F).outerAccess := by
  rw [RwLock.held_release, LockPc.outerAccess, hq]
  rfl

end Effects

theorem Data.beginSpill_frame {cfg : Config} {d d' : Data F} {ch : Choice}
    {fresh : Entry F} {v : Victim F} {q : Pc F}
    (h : d.beginSpill cfg ch fresh v = some (d', q)) :
    d'.heap = d.heap ∧ d'.map = d.map ∧ q.holds = true := by
  rw [Data.beginSpill] at h
  split at h
  · cases h
    exact ⟨rfl, rfl, rfl⟩
  · split at h
    · split at h
      · cases h
        exact ⟨rfl, rfl, rfl⟩
      · obtain ⟨name, -, heq⟩ := Option.bind_eq_some_iff.1 h
        cases heq
        exact ⟨rfl, rfl, rfl⟩
    · cases h
      exact ⟨rfl, rfl, rfl⟩

theorem Request.holds_of_atLookup {r : Request F} {q : Pc F} (h : r.atLookup q = true) :
    q.holds = false := by
  cases r <;> cases q <;> first | rfl | cases h

theorem afterLookup_holds (tick : Nat) (found : Option EntryId) :
    (afterLookup tick found : Pc F).holds = false := by
  cases found <;> rfl

section Calls

variable [DecidableEq τ] [F64 F] {cfg : Config} {t u : τ} {m m' : LockMem τ F}
  {p p' : LockPc F} {r : Request F}

/-- The locks say where a call stands, and what it has read under them holds. -/
structure LockOk (cfg : Config) (t : τ) (m : LockMem τ F) (r : Request F)
    (p : LockPc F) : Prop where
  outer : m.outer.held t = p.outerAccess
  inner : ∀ e, (m.inner e).held t = p.innerAccess e
  known : SectionOk cfg m r p

namespace LockEffect

variable (h : LockEffect t m m') (hu : u ≠ t)
include h hu

/-- What a call knows survives the accesses of the others. -/
theorem lockOk (hok : LockOk cfg u m r p) : LockOk cfg u m' r p where
  outer := (h.outer u hu).trans hok.outer
  inner := fun e => (h.inner e u hu).trans (hok.inner e)
  known := by
    have hknown := hok.known
    cases p with
    | choose tick ring =>
        intro symbol candle hr
        rw [h.map_of_exclusive hu hok.outer]
        exact hknown symbol candle hr
    | ringPush tick e =>
        obtain ⟨cell, hcell, hlive⟩ := hknown
        have hheld := (hok.inner e).trans (LockPc.innerAccess_self rfl)
        obtain ⟨cell', hcell', -, hraise⟩ := h.cell_of_exclusive hu hcell hheld
        refine ⟨cell', hcell', Bool.eq_false_iff.2 fun hrem => ?_⟩
        rw [hraise hrem] at hlive
        cases hlive
    | ringCopy fresh key e =>
        obtain ⟨cell, hcell⟩ := hknown
        obtain ⟨cell', hcell', -⟩ := h.cells e cell hcell
        exact ⟨cell', hcell'⟩
    | _ => exact hknown

/-- The point of the atomic model does not move while another call does. -/
theorem abs_eq (hok : LockOk cfg u m r p) : p.abs m'.data.heap = p.abs m.data.heap := by
  cases p with
  | ringCopy fresh key e =>
      obtain ⟨cell, hcell⟩ := hok.known
      have hheld := (hok.inner e).trans (LockPc.innerAccess_self rfl)
      obtain ⟨cell', hcell', hbuf, -⟩ := h.cell_of_exclusive hu hcell hheld
      simp only [LockPc.abs, ringAt, hcell, hcell', hbuf, Option.map_some]
  | _ => rfl

end LockEffect

/-! ## What an access does -/

variable {o : OsOrder F} {ch : Choice}

theorem LockMove.effect (hok : LockOk cfg t m r p)
    (h : LockMove cfg o t ch m r p m' p') : LockEffect t m m' := by
  have hheld : ∀ {e}, p.ring? = some (e, .exclusive) → (m.inner e).held t = .exclusive :=
    fun hring => (hok.inner _).trans (LockPc.innerAccess_self hring)
  cases h with
  | readMap r q l hq hl => exact .of_outer (RwLock.held_read hl)
  | lockMap symbol candle tick ring l hring hl => exact .of_outer (RwLock.held_write hl)
  | releaseMap | unlockMap => exact .of_outer RwLock.held_release
  | lockRing symbol candle tick e l hl => exact .of_inner (RwLock.held_write hl)
  | lockVictim symbol candle fresh key e l hl => exact .of_inner (RwLock.held_write hl)
  | readRing symbol fromTs toTs e l hl => exact .of_inner (RwLock.held_read hl)
  | releaseRing => exact .of_inner RwLock.held_release
  | touch => exact .of_modify rfl rfl (.inr fun _ => ⟨rfl, id⟩)
  | push | mark => exact .of_modify rfl rfl (.inl (hheld rfl))
  | abort => exact .of_modify rfl rfl (.inr fun _ => ⟨rfl, fun h => by cases h⟩)
  | spill symbol candle fresh v d q hspill =>
      obtain ⟨hheap, hmap, -⟩ := Data.beginSpill_frame hspill
      exact .of_heap [] (hheap.trans (List.append_nil _).symm) (.inl hmap)
  | install symbol candle fresh victim =>
      refine .of_heap [⟨fresh, symbol⟩] ?_ (.inr hok.outer)
      cases victim <;> rfl
  | begin | reject | publish | write =>
      exact .of_heap [] (List.append_nil _).symm (.inl rfl)
  | _ => exact .stay t m

/-- An access that leaves the locks alone. -/
theorem LockOk.of_data (hok : LockOk cfg t m r p) (houter : m'.outer = m.outer)
    (hinner : m'.inner = m.inner) (ho : p'.outerAccess = p.outerAccess)
    (hi : p'.ring? = p.ring?) (hknown : SectionOk cfg m' r p') :
    LockOk cfg t m' r p' where
  outer := by rw [houter, ho, hok.outer]
  inner := fun e => by rw [hinner, hok.inner, LockPc.innerAccess, LockPc.innerAccess, hi]
  known := hknown

/-- The map is locked or released. -/
theorem LockOk.of_outer (hok : LockOk cfg t m r p) {l : RwLock τ}
    (hl : l.held = Function.update m.outer.held t p'.outerAccess)
    (hi : p'.ring? = p.ring?) (hknown : SectionOk cfg { m with outer := l } r p') :
    LockOk cfg t { m with outer := l } r p' where
  outer := by
    show l.held t = _
    rw [hl, Function.update_self]
  inner := fun e => by
    rw [LockPc.innerAccess, hi]
    exact hok.inner e
  known := hknown

/-- A ring is locked. -/
theorem LockOk.of_acquire (hok : LockOk cfg t m r p) (hp : p.ring? = none) {e : EntryId}
    {l : RwLock τ} {access : Access}
    (hl : l.held = Function.update (m.inner e).held t access)
    (ho : p'.outerAccess = p.outerAccess) (hp' : p'.ring? = some (e, access))
    (hknown : SectionOk cfg (m.setInner e l) r p') :
    LockOk cfg t (m.setInner e l) r p' where
  outer := by
    rw [ho]
    exact hok.outer
  inner := fun e' => by
    rw [LockPc.innerAccess_of_ring hp']
    by_cases he : e' = e
    · subst he
      simp only [LockMem.setInner, Function.update_self, hl]
    · simp only [LockMem.setInner, Function.update_of_ne he]
      rw [hok.inner, LockPc.innerAccess_of_none hp]
  known := hknown

/-- A ring is released. -/
theorem LockOk.of_release (hok : LockOk cfg t m r p) {e : EntryId} {access : Access}
    (hp : p.ring? = some (e, access)) (ho : p'.outerAccess = p.outerAccess)
    (hp' : p'.ring? = none) (hknown : SectionOk cfg (m.releaseRing t e) r p') :
    LockOk cfg t (m.releaseRing t e) r p' where
  outer := by
    rw [ho]
    exact hok.outer
  inner := fun e' => by
    rw [LockPc.innerAccess_of_none hp']
    by_cases he : e' = e
    · subst he
      simp only [LockMem.releaseRing, LockMem.setInner, Function.update_self,
        RwLock.held_release]
    · simp only [LockMem.releaseRing, LockMem.setInner, Function.update_of_ne he]
      rw [hok.inner, LockPc.innerAccess_of_ring hp, Function.update_of_ne he]
  known := hknown

theorem LockMove.lockOk (hok : LockOk cfg t m r p)
    (h : LockMove cfg o t ch m r p m' p') : LockOk cfg t m' r p' := by
  cases h with
  | readMap r q l hq hl => exact hok.of_outer (RwLock.held_read hl) rfl hq
  | lockMap symbol candle tick ring l hring hl =>
      refine hok.of_outer (RwLock.held_write hl) rfl ?_
      intro symbol' candle' heq
      cases heq
      exact hring
  | releaseMap r q => exact hok.of_outer (held_release_of_holds hok.known) rfl trivial
  | unlockMap r q => exact hok.of_outer (held_release_of_holds hok.known.1) rfl trivial
  | lockRing symbol candle tick e l hl =>
      exact hok.of_acquire rfl (RwLock.held_write hl) rfl rfl trivial
  | lockVictim symbol candle fresh key e l hl =>
      exact hok.of_acquire rfl (RwLock.held_write hl) rfl rfl trivial
  | readRing symbol fromTs toTs e l hl =>
      exact hok.of_acquire rfl (RwLock.held_read hl) rfl rfl trivial
  | releaseRing r e q => exact hok.of_release rfl rfl rfl trivial
  | get symbol candle tick => exact hok.of_data rfl rfl rfl rfl (afterLookup_holds ..)
  | raceMiss symbol candle tick ring hfound =>
      refine hok.of_data rfl rfl rfl rfl ?_
      intro symbol' candle' heq
      cases heq
      exact ⟨hok.known symbol candle rfl, hfound⟩
  | live symbol candle tick e cell hcell hlive =>
      exact hok.of_data rfl rfl rfl rfl ⟨cell, hcell, hlive⟩
  | mark symbol candle fresh key e cell hcell =>
      exact hok.of_data rfl rfl rfl rfl ⟨_, getElem?_modify_self hcell⟩
  | spill symbol candle fresh v d q hspill =>
      obtain ⟨-, -, hq⟩ := Data.beginSpill_frame hspill
      exact hok.of_data rfl rfl (if_pos hq) rfl trivial
  | choose symbol candle tick ring q hchoose =>
      have hq : q.holds = true := by
        rcases Data.choose_cases hchoose with ⟨e, -, rfl⟩ | ⟨-, rfl⟩ <;> rfl
      exact hok.of_data rfl rfl (if_pos hq) rfl trivial
  | getRange => exact hok.of_data rfl rfl rfl rfl rfl
  | raceHit | abort | install => exact hok.of_data rfl rfl rfl rfl ⟨rfl, rfl⟩
  | _ => exact hok.of_data rfl rfl rfl rfl trivial

/-! ## The accesses that take effect -/

/-- An access is invisible in the atomic model, or it is the step of its section. -/
theorem LockMove.matched {order : τ → OsOrder F} {req : τ → Request F} {n : Mem τ F}
    (hr : req t = r) (hok : LockOk cfg t m r p) (hdata : n.toData = m.data)
    (hlock : p.outerAccess ≠ .none → (p.abs m.data.heap).holds = false → n.lock = none)
    (h : LockMove cfg (order t) t ch m r p m' p') :
    m'.data = m.data ∧ p'.abs m'.data.heap = p.abs m.data.heap ∧ p'.slack < p.slack ∨
      ∃ n', next cfg order req t ch n (p.abs m.data.heap) =
        some (n', p'.abs m'.data.heap) ∧
        n'.toData = m'.data := by
  obtain ⟨d, outer, inner⟩ := m
  subst hdata
  rw [next, hr]
  cases h with
  | begin symbol candle hvalid => exact .inr ⟨_, if_pos hvalid, rfl⟩
  | reject symbol candle hvalid =>
      exact .inr ⟨_, if_neg (Bool.eq_false_iff.1 hvalid), rfl⟩
  | get symbol candle tick =>
      have hfree : n.lock = none := hlock (fun h => by cases h) rfl
      refine .inr ⟨n.log (.lookup t (n.map.lookup symbol)), ?_, rfl⟩
      simp only [LockPc.abs, appendStep, hfree]
      cases hfound : n.map.lookup symbol with
      | some e => simp [afterLookup]
      | none => simp [afterLookup]
  | getRange symbol fromTs toTs =>
      have hfree : n.lock = none := hlock (fun h => by cases h) rfl
      refine .inr ⟨n, ?_, rfl⟩
      simp [LockPc.abs, rangeStep, hfree]
  | flagged symbol candle tick e cell hcell hrem =>
      have hcell : n.heap[e]? = some cell := hcell
      refine .inr ⟨n.log (.retry t e), ?_, rfl⟩
      simp [LockPc.abs, appendStep, hcell, hrem]
  | push symbol candle tick e cell hcell =>
      have hcell : n.heap[e]? = some cell := hcell
      obtain ⟨cell', hcell', hlive⟩ := hok.known
      have hcell' : n.heap[e]? = some cell' := hcell'
      rw [hcell] at hcell'
      cases hcell'
      refine .inr ⟨n.push t e cell symbol candle, ?_, rfl⟩
      simp [LockPc.abs, appendStep, hcell, hlive]
  | panic symbol candle tick hring =>
      refine .inr ⟨n, ?_, rfl⟩
      simp [LockPc.abs, appendStep, hring]
  | raceHit symbol candle tick ring e hfound =>
      have hfree : n.lock = none := hlock (fun h => by cases h) rfl
      have hring := hok.known symbol candle rfl
      have hfound : n.map.lookup symbol = some e := hfound
      refine .inr ⟨n.log (.lookup t (some e)), ?_, rfl⟩
      simp [LockPc.abs, appendStep, hring, hfree, beginInsert, hfound]
  | choose symbol candle tick ring q hchoose =>
      have hfree : n.lock = none := hlock (fun h => by cases h) rfl
      obtain ⟨hring, hmiss⟩ := hok.known symbol candle rfl
      have hmiss : n.map.lookup symbol = none := hmiss
      have hchoose : n.choose cfg ch tick ring = some q := hchoose
      refine .inr ⟨{ n.log (.lookup t none) with lock := some t }, ?_, rfl⟩
      simp [LockPc.abs, appendStep, hring, hfree, beginInsert, hmiss, hchoose]
  | mark symbol candle fresh key e cell hcell =>
      have hcell : n.heap[e]? = some cell := hcell
      refine .inr ⟨n.mark t e, ?_, rfl⟩
      have hmarked : (n.mark t e).heap[e]? = some { cell with removed := true } :=
        getElem?_modify_self hcell
      show appendStep cfg t ch symbol candle n (.evict fresh key e) =
        some (n.mark t e, .spill fresh ⟨key, e, ringAt (n.mark t e).heap e⟩)
      rw [ringAt_eq hmarked]
      simp [appendStep, hcell]
  | copy symbol candle fresh key e cell hcell =>
      refine .inl ⟨rfl, ?_, Nat.le_of_ble_eq_true rfl⟩
      rw [LockPc.abs, LockPc.abs, ringAt_eq hcell]
  | spill symbol candle fresh v d q hspill =>
      exact .inr ⟨{ n with toData := d },
        Option.map_eq_some_iff.2 ⟨(d, q), hspill, rfl⟩, rfl⟩
  | write symbol candle fresh v name hio =>
      refine .inr ⟨n.write cfg v name, ?_, rfl⟩
      simp [LockPc.abs, appendStep, hio]
  | failWrite symbol candle fresh v name err hio =>
      refine .inr ⟨n, ?_, rfl⟩
      simp [LockPc.abs, appendStep, hio]
  | install symbol candle fresh victim => cases victim <;> exact .inr ⟨_, rfl, rfl⟩
  | hot symbol fromTs toTs e cell hcell =>
      have hcell : n.heap[e]? = some cell := hcell
      refine .inr ⟨n, ?_, rfl⟩
      simp [LockPc.abs, rangeStep, hcell]
  | touch | abort | publish | noHot | cold => exact .inr ⟨_, rfl, rfl⟩
  | _ => exact .inl ⟨rfl, rfl, Nat.le_of_ble_eq_true rfl⟩

/-! ## The refinement -/

section Refinement

variable {order : τ → OsOrder F} {req : τ → Request F}
  {w w' : World (LockMem τ F) (LockPc F) τ} {v : World (Mem τ F) (Pc F) τ}

/-- A state with its locks and a reachable state of the atomic model. -/
structure Refines (cfg : Config) (req : τ → Request F)
    (w : World (LockMem τ F) (LockPc F) τ) (v : World (Mem τ F) (Pc F) τ) : Prop where
  data : v.mem.toData = w.mem.data
  pcs : ∀ t, v.pc t = (w.pc t).abs w.mem.data.heap
  locks : ∀ t, LockOk cfg t w.mem (req t) (w.pc t)
  inv : WorldInv cfg req v

theorem Refines.start :
    Refines cfg req (lockStart : World (LockMem τ F) (LockPc F) τ) start where
  data := rfl
  pcs := fun _ => rfl
  locks := fun t => ⟨RwLock.held_free t, fun _ => RwLock.held_free t, trivial⟩
  inv := .start

theorem LockPc.exclusive_of_holds (hok : LockOk cfg t m r p)
    (h : (p.abs m.data.heap).holds = true) : p.outerAccess = .exclusive := by
  have hknown := hok.known
  cases p with
  | enter q | ringRelease e q => exact if_pos h
  | mapRead q =>
      rw [LockPc.abs, Request.holds_of_atLookup hknown] at h
      cases h
  | mapRelease q =>
      have hfree : q.holds = false := hknown
      rw [LockPc.abs, hfree] at h
      cases h
  | mapUnlock | raceCheck | choose | flagSet | ringCopy => rfl
  | flagCheck | ringPush | ringRead => cases h

/-- Whoever has locked the map finds the lock of the atomic model free, unless it
holds that too. -/
theorem Refines.lock_eq_none (h : Refines cfg req w v) (t : τ)
    (hheld : (w.pc t).outerAccess ≠ .none)
    (hholds : ((w.pc t).abs w.mem.data.heap).holds = false) : v.mem.lock = none := by
  cases hlock : v.mem.lock with
  | none => rfl
  | some u =>
      exfalso
      have hu : (v.pc u).holds = true := (h.inv.pcs u).lock_iff.1 hlock
      rw [h.pcs u] at hu
      have hexcl := (h.locks u).outer.trans (LockPc.exclusive_of_holds (h.locks u) hu)
      by_cases htu : t = u
      · subst htu
        rw [hholds] at hu
        cases hu
      · rw [← (h.locks t).outer, RwLock.held_eq_none_of_exclusive hexcl htu] at hheld
        exact hheld rfl

/-- The accesses simulate into the atomic model, where a call takes at most five
accesses for each of its steps. -/
theorem refines_turn :
    SimulatesWithin (turn (lockNext cfg order req)) (turn (next cfg order req))
    (Refines cfg req) (fun t a => if a.thread = t then 1 else 0)
    (fun t w => (w.pc t).slack) 5 := by
  intro w a w' v h hstep
  obtain ⟨m', p', hnext, rfl⟩ := turn_eq_some.1 hstep
  have hmove := lockNext_move hnext
  have hown := h.locks a.thread
  have heff := hmove.effect hown
  have hlocks : ∀ u, LockOk cfg u m' (req u) (Function.update w.pc a.thread p' u) := by
    intro u
    by_cases hu : u = a.thread
    · subst hu
      rw [Function.update_self]
      exact hmove.lockOk hown
    · rw [Function.update_of_ne hu]
      exact heff.lockOk hu (h.locks u)
  have hothers : ∀ u, u ≠ a.thread →
      v.pc u = (Function.update w.pc a.thread p' u).abs m'.data.heap := by
    intro u hu
    rw [Function.update_of_ne hu, heff.abs_eq hu (h.locks u), h.pcs u]
  rcases hmove.matched rfl hown h.data (h.lock_eq_none a.thread) with
    ⟨hdata, habs, hslack⟩ | ⟨n', hn', hdata⟩
  · left
    refine ⟨⟨h.data.trans hdata.symm, ?_, hlocks, h.inv⟩, ?_⟩
    · intro u
      dsimp only
      by_cases hu : u = a.thread
      · subst hu
        rw [Function.update_self, habs, h.pcs]
      · exact hothers u hu
    · intro t
      dsimp only
      by_cases ht : a.thread = t
      · subst ht
        rw [if_pos rfl, Function.update_self]
        omega
      · rw [if_neg ht, Function.update_of_ne (Ne.symm ht)]
        omega
  · right
    rw [← h.pcs] at hn'
    have hturn : turn (next cfg order req) v a =
        some ⟨n', Function.update v.pc a.thread (p'.abs m'.data.heap)⟩ :=
      turn_eq_some.2 ⟨n', _, hn', rfl⟩
    refine ⟨_, hturn, ⟨hdata, ?_, hlocks, h.inv.step hturn⟩, ?_⟩
    · intro u
      dsimp only
      by_cases hu : u = a.thread
      · subst hu
        rw [Function.update_self, Function.update_self]
      · rw [Function.update_of_ne hu]
        exact hothers u hu
    · intro t
      dsimp only
      by_cases ht : a.thread = t
      · subst ht
        have hle := p'.slack_le
        rw [if_pos rfl, Function.update_self]
        omega
      · rw [if_neg ht, Function.update_of_ne (Ne.symm ht)]
        omega

theorem sum_cost_eq_stepsOf (t : τ) (as : List (Turn τ Choice)) :
    (as.map fun a => if a.thread = t then 1 else 0).sum = stepsOf t as := by
  induction as with
  | nil => rfl
  | cons a as ih =>
      rw [List.map_cons, List.sum_cons, ih, stepsOf, stepsOf, List.countP_cons,
        Nat.add_comm]
      congr 1
      by_cases ht : a.thread = t <;> simp [ht]

/-- Every state that the accesses reach refines one that the atomic model reaches
by some of the same turns in the same order. -/
theorem refines_of_exec {as : List (Turn τ Choice)}
    (hrun : exec (turn (lockNext cfg order req)) lockStart as = some w) :
    ∃ bs v, bs.Sublist as ∧ exec (turn (next cfg order req)) start bs = some v ∧
      Refines cfg req w v ∧ ∀ t, stepsOf t as ≤ 2 + 5 * stepsOf t bs := by
  obtain ⟨bs, v, hsub, hbs, hR, hcost⟩ := refines_turn.exec .start hrun
  refine ⟨bs, v, hsub, hbs, hR, ?_⟩
  intro t
  have hcost := hcost t
  rw [sum_cost_eq_stepsOf, sum_cost_eq_stepsOf] at hcost
  have hidle : ((lockStart : World (LockMem τ F) (LockPc F) τ).pc t).slack = 2 := rfl
  omega

end Refinement

end Calls

/-! ## Every run is a run of the atomic model -/

/-- The call is outside every section and over. -/
def LockPc.finished : LockPc F → Bool
  | .enter p => p.finished
  | _ => false

theorem LockPc.eq_enter {p : LockPc F} (h : p.finished = true) :
    ∃ q, p = .enter q ∧ q.finished = true := by
  cases p with
  | enter q => exact ⟨q, rfl, h⟩
  | _ => cases h

end Candlestore.Concurrent
