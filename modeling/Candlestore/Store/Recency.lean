import Candlestore.Lib.Recency
import Candlestore.Lib.System
import Candlestore.Store.Rejected

/-!
# Which symbols are resident

The store knows recency only through the stamps of its entries, drawn from a
counter that rejected appends advance as well, and finds its victim as a minimum
over the map.  This file reads a run of calls instead: beside the store it keeps
the symbols of the accepted appends, newest first, and shows that the residents
are the first `maxSymbols` distinct ones of that log.

`StampEffect` says what a returning call does to the stamps, `RecencyInv` that
the stamps fall along the log.  An accepted append puts its symbol in front, and
the victim is the last of the residents in this order.
-/

namespace Candlestore

open Lib

variable {F : Type}

/-- The stamp of a resident symbol. -/
def Store.stamp (s : Store F) (symbol : Symbol) : Option Nat :=
  (s.map.lookup symbol).map Entry.lastAccess

theorem Store.isResident_eq (s : Store F) (symbol : Symbol) :
    s.isResident symbol = (s.stamp symbol).isSome := by
  rw [isResident, stamp, Option.isSome_map]

theorem Oldest.exists_stamp {s : Store F} {key : Symbol} (h : Oldest s.map key) :
    ∃ x, s.stamp key = some x ∧ ∀ k y, s.stamp k = some y → x ≤ y := by
  obtain ⟨e, he, hle⟩ := h
  refine ⟨e.lastAccess, by rw [Store.stamp, he, Option.map_some], ?_⟩
  intro k y hk
  obtain ⟨x, hx, rfl⟩ := Option.map_eq_some_iff.1 hk
  exact hle k x hx

/-! ## What a call does to the stamps -/

section Calls

variable {cfg : Config} {s s' : Store F} {symbol : Symbol} {c : Candle F} {io : SpillIo}
  {r : Except AppendError Unit}

/-- Everything a returning call can do to the stamps, with the guard of each branch. -/
inductive StampEffect (cfg : Config) (s : Store F) (symbol : Symbol) (s' : Store F) :
    Except AppendError Unit → Prop where
  | invalid : (∀ k, s'.stamp k = s.stamp k) →
      StampEffect cfg s symbol s' (.error (.invalidCandle symbol))
  | touched : s.isResident symbol = true →
      (∀ k, s'.stamp k = if k = symbol then some s.tick else s.stamp k) →
      StampEffect cfg s symbol s' (.ok ())
  | added : s.isResident symbol = false → s.symbolCount < cfg.maxSymbols →
      (∀ k, s'.stamp k = if k = symbol then some s.tick else s.stamp k) →
      StampEffect cfg s symbol s' (.ok ())
  | replaced (key : Symbol) :
      s.isResident symbol = false → cfg.maxSymbols ≤ s.symbolCount →
      Oldest s.map key →
      (∀ k, s'.stamp k =
        if k = symbol then some s.tick else if k = key then none else s.stamp k) →
      StampEffect cfg s symbol s' (.ok ())
  | refused (key : Symbol) (lost : Nat) (err : SpillError) : Oldest s.map key →
      (∀ k, s'.stamp k = s.stamp k) →
      StampEffect cfg s symbol s' (.error (.evictionSpillFailed key lost err))

/-- A store that is full, with at least one place, has a victim. -/
theorem exists_evictKey_of_full (hmax : 0 < cfg.maxSymbols)
    (hfull : cfg.maxSymbols ≤ s.symbolCount) : ∃ key, evictKey s.map = some key := by
  obtain ⟨k, hk⟩ := List.exists_mem_of_length_pos (Nat.lt_of_lt_of_le hmax hfull)
  obtain ⟨e, he⟩ :=
    Option.isSome_iff_exists.1 (AList.lookup_isSome.2 (AList.mem_keys.2 hk))
  exact exists_evictKey he

theorem stamp_insertNew {buf : RingBuffer F} {tick : Nat} (k : Symbol) :
    (s.insertNew symbol buf tick).stamp k = if k = symbol then some tick
      else s.stamp k := by
  rw [Store.stamp, Store.insertNew, lookup_insert_if]
  split <;> rfl

variable [F64 F]

/-- The slow path of a symbol that is not resident. -/
theorem tryInsertNew_stampEffect {t : Nat} (hmax : 0 < cfg.maxSymbols)
    (hlive : ∀ k e, s.map.lookup k = some e → e.removed = false)
    (hrows : ∀ k e, s.map.lookup k = some e → e.buf.toVec ≠ [])
    (hnone : s.map.lookup symbol = none)
    (h : Store.tryInsertNew cfg { s with tick := t } symbol c s.tick io = some (s', r)) :
    StampEffect cfg s symbol s' r := by
  have habsent : s.isResident symbol = false := by
    rw [Store.isResident, hnone]
    rfl
  rcases tryInsertNew_cases h hnone with
    ⟨_, s₁, rfl, rfl, ⟨hroom, rfl⟩ | ⟨hfull, key, hkey, hevict⟩⟩ |
      ⟨key, err, rfl, hkey, hevict⟩
  · -- a full store has a victim, so this branch is the one with room
    have hlt : s.symbolCount < cfg.maxSymbols := by
      rcases hroom with hlt | hvictim
      · exact hlt
      · by_contra hfull
        obtain ⟨key, hkey⟩ := exists_evictKey_of_full hmax (Nat.le_of_not_lt hfull)
        cases hkey.symm.trans hvictim
    exact .added habsent hlt stamp_insertNew
  · obtain ⟨e, he⟩ := evictKey_resident s.map key hkey
    have hcases := evict_cases cfg { s with tick := t } s₁ key e io _ he (hlive key e he)
      (hrows key e he) hevict
    rcases hcases with ⟨_, hmap, _⟩ | ⟨err, hr, _⟩
    · refine .replaced key habsent hfull (evictKey_oldest hkey) ?_
      intro k
      rw [stamp_insertNew, Store.stamp, hmap k]
      split
      · rfl
      · split <;> rfl
    · cases hr
  · obtain ⟨e, he⟩ := evictKey_resident s.map key hkey
    have hcases := evict_cases cfg { s with tick := t } s' key e io _ he (hlive key e he)
      (hrows key e he) hevict
    rcases hcases with ⟨hr, _⟩ | ⟨spillErr, hr, hmap, _⟩
    · cases hr
    · obtain rfl := Except.error.inj hr
      refine .refused key _ spillErr (evictKey_oldest hkey) ?_
      intro k
      rw [Store.stamp, hmap k]
      rfl

theorem tryAppend_stampEffect {h : Ledger F} (hmax : 0 < cfg.maxSymbols)
    (hist : HistoryInv cfg s h) (hcall : s.tryAppend cfg symbol c io = some (s', r)) :
    StampEffect cfg s symbol s' r := by
  cases hget : s.map.lookup symbol with
  | some e =>
      have heffect := tryAppend_effect cfg s s' symbol c io r hist.live
        hist.toVec_ne_nil hcall
      cases heffect with
      | invalid _ hmap _ => exact .invalid fun k => by rw [Store.stamp, hmap]; rfl
      | hit e _ _ hmap _ =>
          refine .touched (by rw [Store.isResident, hget]; rfl) ?_
          intro k
          rw [Store.stamp, hmap k]
          split <;> rfl
      | admitted _ _ hnone => cases hget.symm.trans hnone
      | evicted _ _ _ _ hnone => cases hget.symm.trans hnone
      | refused _ _ _ _ hnone => cases hget.symm.trans hnone
  | none =>
      unfold Store.tryAppend at hcall
      cases hvalid : c.isValid with
      | false =>
          simp only [hvalid, Bool.not_false, if_true, Option.some.injEq, Prod.mk.injEq]
            at hcall
          obtain ⟨rfl, rfl⟩ := hcall
          exact .invalid fun _ => rfl
      | true =>
          simp only [hvalid, Bool.not_true, Bool.false_eq_true, if_false, hget] at hcall
          exact tryInsertNew_stampEffect hmax hist.live hist.toVec_ne_nil hget hcall

end Calls

/-! ## The residents along the log -/

/-- `a` was stamped after `b`. -/
def Store.Newer (s : Store F) (a b : Symbol) : Prop :=
  ∀ x y, s.stamp a = some x → s.stamp b = some y → y < x

/-- The residents are the most recent symbols of the log, and
their stamps fall along it. -/
structure RecencyInv (cfg : Config) (s : Store F) (log : List Symbol) : Prop where
  residents : ∀ k, s.isResident k = true ↔ k ∈ mostRecent cfg.maxSymbols log
  ordered : (mostRecent cfg.maxSymbols log).Pairwise s.Newer

namespace RecencyInv

variable {cfg : Config} {s s' : Store F} {log : List Symbol} {symbol : Symbol}

theorem stamp_eq_none (inv : RecencyInv cfg s log) {k : Symbol}
    (hk : k ∉ mostRecent cfg.maxSymbols log) : s.stamp k = none := by
  rw [← inv.residents k, Store.isResident_eq] at hk
  simpa using hk

theorem symbolCount_eq (inv : RecencyInv cfg s log) :
    s.symbolCount = (mostRecent cfg.maxSymbols log).length := by
  apply List.Perm.length_eq
  apply (List.perm_ext_iff_of_nodup s.map.keys_nodup (nodup_mostRecent _ _)).2
  intro k
  rw [← AList.mem_keys, ← AList.lookup_isSome]
  exact inv.residents k

/-- The oldest entry is the last of the residents. -/
theorem oldest_eq_last (inv : RecencyInv cfg s log) {newer : List Symbol}
    {last key : Symbol} (hlast : mostRecent cfg.maxSymbols log = newer ++ [last])
    (hold : Oldest s.map key) : key = last := by
  obtain ⟨x, hx, hle⟩ := hold.exists_stamp
  have hkey : key ∈ newer ++ [last] := by
    rw [← hlast, ← inv.residents, Store.isResident_eq, hx]
    rfl
  have hend : s.isResident last = true := by
    rw [inv.residents, hlast]
    exact List.mem_append_right _ (List.mem_singleton_self last)
  rw [Store.isResident_eq, Option.isSome_iff_exists] at hend
  obtain ⟨y, hy⟩ := hend
  rcases List.mem_append.1 hkey with hnewer | hkey
  · have hord := inv.ordered
    rw [hlast, List.pairwise_append] at hord
    have hlt : y < x := hord.2.2 key hnewer last (List.mem_singleton_self last) x y hx hy
    have hge := hle last y hy
    omega
  · exact List.mem_singleton.1 hkey

/-- Calls that keep every stamp keep the residents and their order. -/
theorem keep (inv : RecencyInv cfg s log) (h : ∀ k, s'.stamp k = s.stamp k) :
    RecencyInv cfg s' log where
  residents := by
    intro k
    rw [← inv.residents k, Store.isResident_eq, Store.isResident_eq, h k]
  ordered := by
    have heq : s'.Newer = s.Newer := by
      funext a b
      rw [Store.Newer, Store.Newer, h a, h b]
    rw [heq]
    exact inv.ordered

/-- The symbol of the call gets the newest stamp; of the residents
before it, `rest` stay. -/
theorem use (inv : RecencyInv cfg s log) (stamps : StampInv s) {rest : List Symbol}
    (hrest : mostRecent cfg.maxSymbols (symbol :: log) = symbol :: rest)
    (hsub : rest.Sublist (mostRecent cfg.maxSymbols log))
    (hnew : s'.stamp symbol = some s.tick) (hin : ∀ k ∈ rest, s'.stamp k = s.stamp k)
    (hout : ∀ k, k ≠ symbol → k ∉ rest → s'.stamp k = none) :
    RecencyInv cfg s' (symbol :: log) where
  residents := by
    intro k
    rw [hrest, List.mem_cons, Store.isResident_eq]
    by_cases hk : k = symbol
    · subst hk
      simp [hnew]
    · by_cases hmem : k ∈ rest
      · rw [hin k hmem, ← Store.isResident_eq]
        exact iff_of_true ((inv.residents k).2 (hsub.subset hmem)) (.inr hmem)
      · simp [hout k hk hmem, hk, hmem]
  ordered := by
    rw [hrest, List.pairwise_cons]
    constructor
    · intro b hb x y hx hy
      rw [hnew, Option.some.injEq] at hx
      rw [hin b hb] at hy
      obtain ⟨e, he, rfl⟩ := Option.map_eq_some_iff.1 hy
      exact hx ▸ stamps.below b e he
    · refine (inv.ordered.sublist hsub).imp_of_mem ?_
      intro a b ha hb hab x y hx hy
      rw [hin a ha] at hx
      rw [hin b hb] at hy
      exact hab x y hx hy

theorem notMem_of_absent (inv : RecencyInv cfg s log)
    (habsent : s.isResident symbol = false) :
    symbol ∉ mostRecent cfg.maxSymbols log := by
  rw [← inv.residents, habsent]
  exact Bool.false_ne_true

/-- A resident symbol moves to the front. -/
theorem touch (inv : RecencyInv cfg s log) (stamps : StampInv s)
    (hres : s.isResident symbol = true)
    (hstamp : ∀ k, s'.stamp k = if k = symbol then some s.tick else s.stamp k) :
    RecencyInv cfg s' (symbol :: log) := by
  obtain ⟨p, q, hsplit⟩ := List.append_of_mem ((inv.residents symbol).1 hres)
  have hnodup := nodup_mostRecent cfg.maxSymbols log
  rw [hsplit, List.nodup_middle, List.nodup_cons] at hnodup
  refine inv.use stamps (mostRecent_cons_of_mem hsplit) ?_
    (by rw [hstamp, if_pos rfl]) ?_ ?_
  · rw [hsplit]
    exact (List.sublist_cons_self symbol q).append_left p
  · intro k hk
    rw [hstamp, if_neg (ne_of_mem_of_not_mem hk hnodup.1)]
  · intro k hk hrest
    rw [hstamp, if_neg hk]
    apply inv.stamp_eq_none
    rw [hsplit, List.perm_middle.mem_iff, List.mem_cons]
    exact not_or.2 ⟨hk, hrest⟩

/-- A new symbol goes in front of all the others while there is room. -/
theorem add (inv : RecencyInv cfg s log) (stamps : StampInv s)
    (habsent : s.isResident symbol = false) (hroom : s.symbolCount < cfg.maxSymbols)
    (hstamp : ∀ k, s'.stamp k = if k = symbol then some s.tick else s.stamp k) :
    RecencyInv cfg s' (symbol :: log) := by
  have hnew := inv.notMem_of_absent habsent
  have hcons := mostRecent_cons_of_notMem (Nat.zero_lt_of_lt hroom) hnew
  rw [inv.symbolCount_eq] at hroom
  rw [mostRecent_pred_of_lt hroom] at hcons
  refine inv.use stamps hcons (List.Sublist.refl _) (by rw [hstamp, if_pos rfl]) ?_ ?_
  · intro k hk
    rw [hstamp, if_neg (ne_of_mem_of_not_mem hk hnew)]
  · intro k hk hrest
    rw [hstamp, if_neg hk]
    exact inv.stamp_eq_none hrest

/-- In a full store it takes the place of the last. -/
theorem replace (inv : RecencyInv cfg s log) (stamps : StampInv s)
    (hmax : 0 < cfg.maxSymbols) {key : Symbol} (habsent : s.isResident symbol = false)
    (hfull : cfg.maxSymbols ≤ s.symbolCount) (hold : Oldest s.map key)
    (hstamp : ∀ k, s'.stamp k =
      if k = symbol then some s.tick else if k = key then none else s.stamp k) :
    RecencyInv cfg s' (symbol :: log) := by
  have hnew := inv.notMem_of_absent habsent
  have hnodup := nodup_mostRecent cfg.maxSymbols log
  rw [inv.symbolCount_eq] at hfull
  obtain ⟨last, hlast⟩ := mostRecent_eq_concat hmax hfull
  obtain rfl := inv.oldest_eq_last hlast hold
  have hsub : (mostRecent (cfg.maxSymbols - 1) log).Sublist
      (mostRecent cfg.maxSymbols log) := by
    rw [hlast]
    exact List.sublist_append_left _ _
  rw [hlast, (List.perm_append_singleton _ _).nodup_iff, List.nodup_cons] at hnodup
  refine inv.use stamps (mostRecent_cons_of_notMem hmax hnew) hsub
    (by rw [hstamp, if_pos rfl]) ?_ ?_
  · intro k hk
    rw [hstamp, if_neg (ne_of_mem_of_not_mem (hsub.subset hk) hnew),
      if_neg (ne_of_mem_of_not_mem hk hnodup.1)]
  · intro k hk hrest
    rw [hstamp, if_neg hk]
    split
    · rfl
    · next hkey =>
        apply inv.stamp_eq_none
        rw [hlast, List.mem_append, List.mem_singleton]
        exact not_or.2 ⟨hrest, hkey⟩

end RecencyInv

theorem recencyInv_new (cfg : Config) : RecencyInv cfg (Store.new : Store F) [] where
  residents := by
    intro k
    simp [Store.isResident, Store.new, mostRecent, firsts]
  ordered := by
    simp [mostRecent, firsts]

/-! ## The victim -/

/-- The call removed `key`, or tried to and could not spill it. -/
def Evicts (s s' : Store F) (r : Except AppendError Unit) (key : Symbol) : Prop :=
  (s.isResident key = true ∧ s'.isResident key = false) ∨
    ∃ lost err, r = .error (.evictionSpillFailed key lost err)

/-- The victim of a call is the oldest entry. -/
theorem StampEffect.oldest {cfg : Config} {s s' : Store F} {symbol key : Symbol}
    {r : Except AppendError Unit}
    (heffect : StampEffect cfg s symbol s' r) (hevict : Evicts s s' r key) :
    Oldest s.map key := by
  -- only `replaced` and `refused` name a victim; the other calls keep every resident
  have hstays : (∀ k, s'.stamp k = if k = symbol then some s.tick else s.stamp k) ∨
      (∀ k, s'.stamp k = s.stamp k) →
      ¬(s.isResident key = true ∧ s'.isResident key = false) := by
    rintro hstamp ⟨hbefore, hafter⟩
    rw [Store.isResident_eq] at hbefore hafter
    rcases hstamp with hstamp | hstamp
    · rw [hstamp key] at hafter
      split at hafter
      · cases hafter
      · cases hbefore.symm.trans hafter
    · rw [hstamp key] at hafter
      cases hbefore.symm.trans hafter
  rcases hevict with hleaves | ⟨lost, err, rfl⟩
  · cases heffect with
    | invalid hstamp => exact absurd hleaves (hstays (.inr hstamp))
    | touched _ hstamp => exact absurd hleaves (hstays (.inl hstamp))
    | added _ _ hstamp => exact absurd hleaves (hstays (.inl hstamp))
    | refused _ _ _ _ hstamp => exact absurd hleaves (hstays (.inr hstamp))
    | replaced victim _ _ hold hstamp =>
        by_cases hkey : key = victim
        · exact hkey ▸ hold
        · refine absurd hleaves ?_
          rintro ⟨hbefore, hafter⟩
          rw [Store.isResident_eq] at hbefore hafter
          rw [hstamp key, if_neg hkey] at hafter
          split at hafter
          · cases hafter
          · cases hbefore.symm.trans hafter
  · cases heffect with
    | refused _ _ _ hold => exact hold

/-- The oldest entry was last appended to before an append to each other resident. -/
theorem RecencyInv.split_of_oldest {cfg : Config} {s : Store F} {log : List Symbol}
    {key : Symbol} (inv : RecencyInv cfg s log) (hold : Oldest s.map key) :
    s.isResident key = true ∧ ∃ newer older, log = newer ++ key :: older ∧ key ∉ newer ∧
      ∀ k, s.isResident k = true → k ≠ key → k ∈ newer := by
  obtain ⟨x, hx, _⟩ := hold.exists_stamp
  have hres : s.isResident key = true := by
    rw [Store.isResident_eq, hx]
    rfl
  refine ⟨hres, ?_⟩
  rcases List.eq_nil_or_concat (mostRecent cfg.maxSymbols log) with
    hnil | ⟨init, last, hlast⟩
  · rw [inv.residents, hnil] at hres
    exact absurd hres List.not_mem_nil
  · rw [List.concat_eq_append] at hlast
    obtain rfl := inv.oldest_eq_last hlast hold
    obtain ⟨newer, older, hlog, hkey, hinit⟩ := split_of_mostRecent hlast
    refine ⟨newer, older, hlog, hkey, ?_⟩
    intro k hk hne
    rw [inv.residents, hlast, List.mem_append, List.mem_singleton] at hk
    exact hinit k (hk.resolve_right hne)

/-! ## Runs with their log -/

/-- A store and the symbols of the accepted appends, newest first. -/
structure Logged (F : Type) where
  store : Store F
  log : List Symbol

/-- No call yet. -/
def Logged.start : Logged F := ⟨Store.new, []⟩

section Runs

variable [F64 F] {cfg : Config}

/-- One call; an accepted append is logged. -/
def loggedStep (cfg : Config) (l : Logged F) (call : Call F) : Option (Logged F) := do
  let (s', result) ← l.store.tryAppend cfg call.symbol call.candle call.io
  match result with
  | .ok () => return ⟨s', call.symbol :: l.log⟩
  | .error _ => return ⟨s', l.log⟩

/-- What a run keeps: the store is one of a run with a ledger, and its residents follow
the log. -/
structure LoggedInv (cfg : Config) (l : Logged F) : Prop where
  run : ∃ h, Run cfg l.store h
  recency : RecencyInv cfg l.store l.log

theorem LoggedInv.step (hmax : 0 < cfg.maxSymbols) (l : Logged F) (call : Call F)
    (l' : Logged F) (inv : LoggedInv cfg l) (hstep : loggedStep cfg l call = some l') :
    LoggedInv cfg l' := by
  obtain ⟨h, hrun⟩ := inv.run
  rw [loggedStep, Option.bind_eq_bind, Option.bind_eq_some_iff] at hstep
  obtain ⟨⟨s', result⟩, hcall, hrest⟩ := hstep
  have hstamps := hrun.stampInv
  have heffect := tryAppend_stampEffect hmax hrun.historyInv hcall
  cases result with
  | ok u =>
      obtain rfl := Option.some.inj hrest
      refine ⟨⟨_, hrun.accepted _ _ _ hcall⟩, ?_⟩
      cases heffect with
      | touched hres hstamp => exact inv.recency.touch hstamps hres hstamp
      | added habsent hroom hstamp => exact inv.recency.add hstamps habsent hroom hstamp
      | replaced key habsent hfull hold hstamp =>
          exact inv.recency.replace hstamps hmax habsent hfull hold hstamp
  | error err =>
      obtain rfl := Option.some.inj hrest
      refine ⟨⟨_, hrun.rejected _ _ _ err hcall⟩, ?_⟩
      cases heffect with
      | invalid hstamp => exact inv.recency.keep hstamp
      | refused key lost err _ hstamp => exact inv.recency.keep hstamp

theorem LoggedInv.of_exec (hmax : 0 < cfg.maxSymbols) {calls : List (Call F)}
    {l : Logged F} (hrun : exec (loggedStep cfg) Logged.start calls = some l) :
    LoggedInv cfg l :=
  exec_invariant (LoggedInv.step hmax) hrun ⟨⟨_, Run.start⟩, recencyInv_new cfg⟩

/-- After every run of calls, whatever candles were invalid and whatever spills failed,
the residents are the first `maxSymbols` distinct symbols of the accepted appends read
backwards.  There are never more than `maxSymbols`, and the next call can only evict the
one of them whose last accepted append is older than an append of each of the others. -/
theorem residents_most_recent (hmax : 1 ≤ cfg.maxSymbols) {calls : List (Call F)}
    {l : Logged F} (hrun : exec (loggedStep cfg) Logged.start calls = some l) :
    (∀ k, l.store.isResident k = true ↔ k ∈ mostRecent cfg.maxSymbols l.log) ∧
      l.store.symbolCount ≤ cfg.maxSymbols ∧
      ∀ symbol c io s' r key, l.store.tryAppend cfg symbol c io = some (s', r) →
        Evicts l.store s' r key →
          l.store.isResident key = true ∧
            ∃ newer older, l.log = newer ++ key :: older ∧ key ∉ newer ∧
              ∀ k, l.store.isResident k = true → k ≠ key → k ∈ newer := by
  have inv := LoggedInv.of_exec hmax hrun
  refine ⟨inv.recency.residents, ?_, ?_⟩
  · rw [inv.recency.symbolCount_eq]
    exact length_mostRecent_le _ _
  · intro symbol c io s' r key hcall hevict
    obtain ⟨h, hledger⟩ := inv.run
    have heffect := tryAppend_stampEffect hmax hledger.historyInv hcall
    exact inv.recency.split_of_oldest (heffect.oldest hevict)

end Runs

/-- Two places, and the calls A, B, a C that cannot be spilled for, an invalid C and A.
The next C evicts B, which was inserted after A but used before it. -/
theorem residents_most_recent_two_places :
    let cfg : Config := ⟨2, 1, true, fun _ => false⟩
    let calls : List (Call ℚ) :=
      [⟨['A'], flatCandle 0 1, .ok⟩, ⟨['B'], flatCandle 0 1, .ok⟩,
      ⟨['C'], flatCandle 0 1, .failBefore .parquet⟩, ⟨['C'], flatCandle (-1) 1, .ok⟩,
      ⟨['A'], flatCandle 1 1, .ok⟩]
    ∃ (l : Logged ℚ) (s' : Store ℚ) (r : Except AppendError Unit),
      exec (loggedStep cfg) Logged.start calls = some l ∧ l.log = [['A'], ['B'], ['A']] ∧
      l.store.tryAppend cfg ['C'] (flatCandle 2 1) .ok = some (s', r) ∧
      Evicts l.store s' r ['B'] ∧ l.store.symbolCount ≤ 2 ∧ ['B'] ∈ mostRecent 2 l.log ∧
      ∃ newer older, l.log = newer ++ ['B'] :: older ∧ ['A'] ∈ newer := by
  intro cfg calls
  obtain ⟨l, hrun, hp⟩ := exists_exec (loggedStep cfg) Logged.start calls
    (fun l => l.log == [['A'], ['B'], ['A']] && l.store.isResident ['A'] &&
      (l.store.tryAppend cfg ['C'] (flatCandle 2 1) .ok).any fun r =>
        l.store.isResident ['B'] && !r.1.isResident ['B'])
    (by decide +kernel)
  simp only [Bool.and_eq_true, beq_iff_eq] at hp
  obtain ⟨⟨hlog, hA⟩, hcall⟩ := hp
  obtain ⟨⟨s', r⟩, hcall, hleaves⟩ := (Option.any_eq_true _ _).1 hcall
  rw [Bool.and_eq_true, Bool.not_eq_true'] at hleaves
  have hevict : Evicts l.store s' r ['B'] := .inl hleaves
  obtain ⟨hres, hcount, hvictim⟩ := residents_most_recent (by decide) hrun
  obtain ⟨_, newer, older, hsplit, _, hnewer⟩ := hvictim _ _ _ s' r ['B'] hcall hevict
  exact ⟨l, s', r, hrun, hlog, hcall, hevict, hcount, (hres ['B']).1 hleaves.1,
    newer, older, hsplit, hnewer ['A'] hA (by decide)⟩

end Candlestore
