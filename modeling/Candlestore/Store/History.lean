import Candlestore.Lib.Window
import Candlestore.Store.Basic

/-!
# Runs of the single-threaded store and their residency history

A run is a sequence of `tryAppend` calls that return.  Beside the store it
keeps a ledger: for every symbol the list of its residency periods, each with
the candles accepted in it.  A period starts when the symbol is inserted and
collects everything accepted while the symbol stays resident.

`HistoryInv` ties the ledger to the store: the ring of a resident symbol holds
the newest `ringCapacity` candles of its last period, and the readable rows of
a cold directory are those of the closed periods of the symbols that share it.
-/

namespace Candlestore

open Lib

variable {F : Type}

/-- Accepted candles of a symbol, one list per residency period. -/
abbrev Ledger (F : Type) := Symbol → List (List (Candle F))

/-- Add a candle to the last period. -/
def appendToLast (periods : List (List (Candle F))) (c : Candle F) :
    List (List (Candle F)) :=
  periods.dropLast ++ [periods.getLastD [] ++ [c]]

/-- Record an accepted append: it extends the current period of a resident
symbol and opens a new one otherwise. -/
def Ledger.record (h : Ledger F) (symbol : Symbol) (c : Candle F) (resident : Bool) :
    Ledger F :=
  Function.update h symbol
    (if resident then appendToLast (h symbol) c else h symbol ++ [[c]])

section Runs

variable [F64 F]

/-- Runs of append calls from a new store, with their ledger. -/
inductive Run (cfg : Config) : Store F → Ledger F → Prop where
  | start : Run cfg Store.new (fun _ => [])
  | accepted {s s' : Store F} {h : Ledger F} (symbol : Symbol) (c : Candle F)
      (io : SpillIo) :
      Run cfg s h → s.tryAppend cfg symbol c io = some (s', .ok ()) →
      Run cfg s' (h.record symbol c (s.isResident symbol))
  | rejected {s s' : Store F} {h : Ledger F} (symbol : Symbol) (c : Candle F)
      (io : SpillIo) (err : AppendError) :
      Run cfg s h → s.tryAppend cfg symbol c io = some (s', .error err) → Run cfg s' h

end Runs

/-- The periods of a symbol that have ended. -/
def closedPeriods (s : Store F) (h : Ledger F) (symbol : Symbol) :
    List (List (Candle F)) :=
  if s.isResident symbol then (h symbol).dropLast else h symbol

/-- The candles a symbol's ended periods left in cold storage. -/
def spilledRows (cfg : Config) (s : Store F) (h : Ledger F) (symbol : Symbol) :
    List (Candle F) :=
  ((closedPeriods s h symbol).map fun p => p.rtake cfg.ringCapacity).flatten

/-- Everything a symbol's periods retained, oldest first. -/
def retained (cfg : Config) (h : Ledger F) (symbol : Symbol) : List (Candle F) :=
  ((h symbol).map fun p => p.rtake cfg.ringCapacity).flatten

/-! ## What one call does -/

theorem lookup_insert_if (m : AList (fun _ : Symbol => Entry F)) (a k : Symbol)
    (x : Entry F) : (m.insert a x).lookup k = if k = a then some x else m.lookup k := by
  by_cases hk : k = a
  · subst hk
    rw [if_pos rfl, AList.lookup_insert]
  · rw [if_neg hk, AList.lookup_insert_ne hk]

/-- The victim is a resident symbol. -/
theorem evictKey_resident (map : AList (fun _ : Symbol => Entry F)) (key : Symbol)
    (h : evictKey map = some key) : ∃ e, map.lookup key = some e := by
  obtain ⟨⟨k, e⟩, hmin, rfl⟩ := Option.map_eq_some_iff.1 h
  exact ⟨e, AList.mem_lookup_iff.2 (List.argmin_mem hmin)⟩

/-- Eviction of a resident key: it leaves the map with its ring spilled (or
dropped without a data directory), or the spill fails and it stays as it was. -/
theorem evict_cases (cfg : Config) (s s' : Store F) (key : Symbol) (e : Entry F)
    (io : SpillIo) (r : Except AppendError Unit) (hkey : s.map.lookup key = some e)
    (hlive : e.removed = false) (hne : e.buf.toVec ≠ [])
    (h : s.evict cfg key io = some (s', r)) :
    (r = .ok () ∧ (∀ k, s'.map.lookup k = if k = key then none else s.map.lookup k) ∧
        (cfg.dataDir = false ∧ s'.files = s.files ∨
          cfg.dataDir = true ∧ spill cfg.uni s.files key e.buf.toVec io =
            some (s'.files, .ok ()))) ∨
      ∃ err, r = .error (.evictionSpillFailed key e.buf.toVec.length err) ∧
        (∀ k, s'.map.lookup k = s.map.lookup k) ∧
        spill cfg.uni s.files key e.buf.toVec io = some (s'.files, .error err) := by
  have herase : ∀ (x : Entry F) k,
      ((s.map.insert key x).erase key).lookup k = if k = key then none
      else s.map.lookup k := by
    intro x k
    by_cases hk : k = key
    · subst hk
      rw [if_pos rfl, AList.lookup_erase]
    · rw [if_neg hk, AList.lookup_erase_ne hk, AList.lookup_insert_ne hk]
  have hempty : e.buf.toVec.isEmpty = false := by simpa using hne
  simp only [Store.evict, hkey, hempty, Bool.false_or] at h
  cases hdir : cfg.dataDir with
  | false =>
      simp only [hdir, Bool.not_false, if_true, Option.some.injEq, Prod.mk.injEq] at h
      obtain ⟨rfl, rfl⟩ := h
      exact Or.inl ⟨rfl, herase _, Or.inl ⟨rfl, rfl⟩⟩
  | true =>
      simp only [hdir, Bool.not_true, Bool.false_eq_true, if_false, Option.bind_eq_bind,
        Option.bind_eq_some_iff] at h
      obtain ⟨⟨files, result⟩, hspill, hres⟩ := h
      cases result with
      | ok u =>
          simp only [Option.pure_def, Option.some.injEq, Prod.mk.injEq] at hres
          obtain ⟨rfl, rfl⟩ := hres
          exact Or.inl ⟨rfl, herase _, Or.inr ⟨rfl, hspill⟩⟩
      | error err =>
          simp only [Option.pure_def, Option.some.injEq, Prod.mk.injEq] at hres
          obtain ⟨rfl, rfl⟩ := hres
          refine Or.inr ⟨err, rfl, ?_, hspill⟩
          intro k
          by_cases hk : k = key
          · subst hk
            rw [AList.lookup_insert, hkey, ← hlive]
          · rw [AList.lookup_insert_ne hk, AList.lookup_insert_ne hk]

section Calls

variable [F64 F]

/-- The ring a new entry starts with. -/
def firstRing (cfg : Config) (hcap : 0 < cfg.ringCapacity) (c : Candle F) :
    RingBuffer F :=
  ((RingBuffer.new cfg.ringCapacity hcap).push c).2

/-- Everything a returning call can do to the map and to the files. -/
inductive AppendEffect (cfg : Config) (s : Store F) (symbol : Symbol) (c : Candle F)
    (io : SpillIo) (s' : Store F) : Except AppendError Unit → Prop where
  | invalid : c.isValid = false → s'.map = s.map → s'.files = s.files →
      AppendEffect cfg s symbol c io s' (.error (.invalidCandle symbol))
  | hit (e : Entry F) : c.isValid = true → s.map.lookup symbol = some e →
      (∀ k, s'.map.lookup k = if k = symbol
        then some { e with buf := (e.buf.push c).2, lastAccess := s.tick }
        else s.map.lookup k) →
      s'.files = s.files → AppendEffect cfg s symbol c io s' (.ok ())
  | admitted (hcap : 0 < cfg.ringCapacity) :
      c.isValid = true → s.map.lookup symbol = none →
      (∀ k, s'.map.lookup k = if k = symbol then some ⟨firstRing cfg hcap c,
        s.tick, false⟩
        else s.map.lookup k) →
      s'.files = s.files → AppendEffect cfg s symbol c io s' (.ok ())
  | evicted (hcap : 0 < cfg.ringCapacity) (key : Symbol) (e : Entry F) :
      c.isValid = true →
      s.map.lookup symbol = none → s.map.lookup key = some e →
      (∀ k, s'.map.lookup k = if k = symbol then some ⟨firstRing cfg hcap c,
        s.tick, false⟩
        else if k = key then none else s.map.lookup k) →
      (cfg.dataDir = false ∧ s'.files = s.files ∨
        cfg.dataDir = true ∧
          spill cfg.uni s.files key e.buf.toVec io = some (s'.files, .ok ())) →
      AppendEffect cfg s symbol c io s' (.ok ())
  | refused (key : Symbol) (e : Entry F) (err : SpillError) : c.isValid = true →
      s.map.lookup symbol = none → s.map.lookup key = some e →
      (∀ k, s'.map.lookup k = s.map.lookup k) →
      spill cfg.uni s.files key e.buf.toVec io = some (s'.files, .error err) →
      AppendEffect cfg s symbol c io s'
        (.error (.evictionSpillFailed key e.buf.toVec.length err))

/-- The slow path of a symbol that is not resident: it is inserted, into free space or
in the place of the victim, or the eviction fails and decides the result. -/
theorem tryInsertNew_cases {cfg : Config} {s s' : Store F} {symbol : Symbol}
    {c : Candle F} {tick : Nat} {io : SpillIo} {r : Except AppendError Unit}
    (h : Store.tryInsertNew cfg s symbol c tick io = some (s', r))
    (hnone : s.map.lookup symbol = none) :
    (∃ hcap s₁, r = .ok () ∧ s' = Store.insertNew s₁ symbol (firstRing cfg hcap c) tick ∧
        ((s.symbolCount < cfg.maxSymbols ∨ evictKey s.map = none) ∧ s₁ = s ∨
          cfg.maxSymbols ≤ s.symbolCount ∧
            ∃ key, evictKey s.map = some key ∧ s.evict cfg key io = some (s₁, .ok ()))) ∨
      ∃ key err, r = .error err ∧ evictKey s.map = some key ∧
        s.evict cfg key io = some (s', .error err) := by
  unfold Store.tryInsertNew at h
  by_cases hcap : 0 < cfg.ringCapacity
  · rw [dif_pos hcap] at h
    simp only [hnone] at h
    split at h
    · next hfull =>
        cases hkey : evictKey s.map with
        | none =>
            simp only [hkey, Option.some.injEq, Prod.mk.injEq] at h
            exact .inl ⟨hcap, s, h.2.symm, h.1.symm, .inl ⟨.inr rfl, rfl⟩⟩
        | some key =>
            simp only [hkey, Option.bind_eq_bind, Option.bind_eq_some_iff] at h
            obtain ⟨⟨s₁, result⟩, hevict, hrest⟩ := h
            cases result with
            | ok u =>
                obtain ⟨rfl, rfl⟩ := Prod.mk.inj (Option.some.inj hrest)
                exact .inl ⟨hcap, s₁, rfl, rfl, .inr ⟨hfull, key, rfl, hevict⟩⟩
            | error err =>
                obtain ⟨rfl, rfl⟩ := Prod.mk.inj (Option.some.inj hrest)
                exact .inr ⟨key, err, rfl, rfl, hevict⟩
    · next hroom =>
        simp only [Option.some.injEq, Prod.mk.injEq] at h
        exact .inl ⟨hcap, s, h.2.symm, h.1.symm,
          .inl ⟨.inl (Nat.lt_of_not_le hroom), rfl⟩⟩
  · rw [dif_neg hcap] at h
    cases h

/-- What the slow path does to the map and to the files. -/
theorem tryInsertNew_effect (cfg : Config) (s s' : Store F) (symbol : Symbol)
    (c : Candle F) (t : Nat) (io : SpillIo) (r : Except AppendError Unit)
    (hvalid : c.isValid = true)
    (hlive : ∀ k e, s.map.lookup k = some e → e.removed = false)
    (hfull : ∀ k e, s.map.lookup k = some e → e.buf.toVec ≠ [])
    (hnone : s.map.lookup symbol = none)
    (h : Store.tryInsertNew cfg { s with tick := t } symbol c s.tick io = some (s', r)) :
    AppendEffect cfg s symbol c io s' r := by
  rcases tryInsertNew_cases h hnone with
    ⟨hcap, s₁, rfl, rfl, ⟨_, rfl⟩ | ⟨_, key, hkey, hevict⟩⟩ |
      ⟨key, err, rfl, hkey, hevict⟩
  · exact .admitted hcap hvalid hnone (fun k => lookup_insert_if _ _ k _) rfl
  · obtain ⟨e, he⟩ := evictKey_resident s.map key hkey
    have hcases := evict_cases cfg { s with tick := t } s₁ key e io _ he (hlive key e he)
      (hfull key e he) hevict
    rcases hcases with ⟨_, hmap, hfiles⟩ | ⟨err, hr, _⟩
    · refine .evicted hcap key e hvalid hnone he ?_ hfiles
      intro k
      rw [Store.insertNew, lookup_insert_if, hmap k]
    · cases hr
  · obtain ⟨e, he⟩ := evictKey_resident s.map key hkey
    have hcases := evict_cases cfg { s with tick := t } s' key e io _ he (hlive key e he)
      (hfull key e he) hevict
    rcases hcases with ⟨hr, _⟩ | ⟨spillErr, hr, hmap, hspill⟩
    · cases hr
    · obtain rfl := Except.error.inj hr
      exact .refused key e spillErr hvalid hnone he hmap hspill

/-- Inversion of a returning call, on a store whose entries are live and hold at
least one candle. -/
theorem tryAppend_effect (cfg : Config) (s s' : Store F) (symbol : Symbol) (c : Candle F)
    (io : SpillIo) (r : Except AppendError Unit)
    (hlive : ∀ k e, s.map.lookup k = some e → e.removed = false)
    (hfull : ∀ k e, s.map.lookup k = some e → e.buf.toVec ≠ [])
    (h : s.tryAppend cfg symbol c io = some (s', r)) :
    AppendEffect cfg s symbol c io s' r := by
  unfold Store.tryAppend at h
  cases hvalid : c.isValid with
  | false =>
      simp only [hvalid, Bool.not_false, if_true, Option.some.injEq, Prod.mk.injEq] at h
      obtain ⟨rfl, rfl⟩ := h
      exact .invalid hvalid rfl rfl
  | true =>
      simp only [hvalid, Bool.not_true, Bool.false_eq_true, if_false] at h
      cases hget : s.map.lookup symbol with
      | none =>
          simp only [hget] at h
          exact tryInsertNew_effect cfg s s' symbol c _ io r hvalid hlive hfull hget h
      | some e =>
          simp only [hget, Store.pushAndPublish, hlive symbol e hget, Bool.false_eq_true,
            if_false, Option.some.injEq, Prod.mk.injEq] at h
          obtain ⟨rfl, rfl⟩ := h
          refine .hit e hvalid hget ?_ rfl
          intro k
          rw [lookup_insert_if, hlive symbol e hget]

end Calls

/-! ## The ledger invariant -/

theorem appendToLast_concat (closed : List (List (Candle F))) (cur : List (Candle F))
    (c : Candle F) : appendToLast (closed ++ [cur]) c = closed ++ [cur ++ [c]] := by
  simp [appendToLast]

theorem closedPeriods_resident (s : Store F) (h : Ledger F) (k : Symbol) (e : Entry F)
    (hk : s.map.lookup k = some e) : closedPeriods s h k = (h k).dropLast := by
  rw [closedPeriods, Store.isResident, hk]
  rfl

theorem closedPeriods_absent (s : Store F) (h : Ledger F) (k : Symbol)
    (hk : s.map.lookup k = none) : closedPeriods s h k = h k := by
  rw [closedPeriods, Store.isResident, hk]
  rfl

/-- The store agrees with the ledger. -/
structure HistoryInv (cfg : Config) (s : Store F) (h : Ledger F) : Prop where
  live : ∀ k e, s.map.lookup k = some e → e.removed = false
  capacity : ∀ k e, s.map.lookup k = some e → e.buf.capacity = cfg.ringCapacity
  ring : ∀ k e, s.map.lookup k = some e →
    ∃ closed cur, h k = closed ++ [cur] ∧ cur ≠ [] ∧
      e.buf.toVec = cur.rtake cfg.ringCapacity
  advertised : ∀ f ∈ s.files, Advertised f
  cold : cfg.dataDir = true → ∀ d c,
    c ∈ stored s.files d ↔ ∃ k, escapeSymbol cfg.uni k = d ∧ c ∈ spilledRows cfg s h k

theorem HistoryInv.toVec_ne_nil {cfg : Config} {s : Store F} {h : Ledger F}
    (inv : HistoryInv cfg s h) (k : Symbol) (e : Entry F)
    (hk : s.map.lookup k = some e) : e.buf.toVec ≠ [] := by
  obtain ⟨closed, cur, _, hcur, hvec⟩ := inv.ring k e hk
  have hcap : 0 < e.buf.capacity := Nat.lt_of_le_of_lt (Nat.zero_le _) e.buf.head_lt
  have hpos : 0 < cur.length := List.length_pos_of_ne_nil hcur
  rw [inv.capacity k e hk] at hcap
  rw [hvec, ← List.length_pos_iff, List.rtake, List.length_drop]
  omega

theorem historyInv_new (cfg : Config) : HistoryInv cfg (Store.new : Store F)
    (fun _ => []) where
  live := by
    intro k e hk
    simp [Store.new] at hk
  capacity := by
    intro k e hk
    simp [Store.new] at hk
  ring := by
    intro k e hk
    simp [Store.new] at hk
  advertised := by
    intro f hf
    exact absurd hf List.not_mem_nil
  cold := by
    intro _ d c
    simp [Store.new, stored, spilledRows, closedPeriods]

section Preservation

variable {cfg : Config} {s s' : Store F} {h : Ledger F} {symbol : Symbol} {c : Candle F}

/-- Rows of a symbol depend on its ledger line and on whether it is resident. -/
theorem spilledRows_congr (h' : Ledger F) (k : Symbol)
    (hres : (s'.map.lookup k).isSome = (s.map.lookup k).isSome) (hh : h' k = h k) :
    spilledRows cfg s' h' k = spilledRows cfg s h k := by
  rw [spilledRows, spilledRows, closedPeriods, closedPeriods, Store.isResident,
    Store.isResident, hres, hh]

/-- The accepted candle ends up in the current period of its symbol, whose entry
is now `e`; no period closes. -/
theorem HistoryInv.extend (inv : HistoryInv cfg s h) {e : Entry F} {known : Bool}
    {closed : List (List (Candle F))} {cur : List (Candle F)}
    (hmap : ∀ k, s'.map.lookup k = if k = symbol then some e else s.map.lookup k)
    (hfiles : s'.files = s.files) (hlive : e.removed = false)
    (hcap : e.buf.capacity = cfg.ringCapacity)
    (hrec : h.record symbol c known symbol = closed ++ [cur]) (hcur : cur ≠ [])
    (hvec : e.buf.toVec = cur.rtake cfg.ringCapacity)
    (hclosed : closedPeriods s h symbol = closed) :
    HistoryInv cfg s' (h.record symbol c known) := by
  have hother : ∀ k, k ≠ symbol → h.record symbol c known k = h k := by
    intro k hk
    rw [Ledger.record, Function.update_of_ne hk]
  have hcases : ∀ k x, s'.map.lookup k = some x →
      (k = symbol ∧ x = e) ∨ (k ≠ symbol ∧ s.map.lookup k = some x) := by
    intro k x hk
    rw [hmap k] at hk
    by_cases heq : k = symbol
    · rw [if_pos heq, Option.some.injEq] at hk
      exact Or.inl ⟨heq, hk.symm⟩
    · rw [if_neg heq] at hk
      exact Or.inr ⟨heq, hk⟩
  have hsame : ∀ k, spilledRows cfg s' (h.record symbol c known) k =
      spilledRows cfg s h k := by
    intro k
    by_cases heq : k = symbol
    · subst heq
      have hnew : s'.map.lookup k = some e := by rw [hmap k, if_pos rfl]
      rw [spilledRows, spilledRows, closedPeriods_resident s' _ k _ hnew, hclosed, hrec,
        List.dropLast_concat]
    · exact spilledRows_congr _ k (by rw [hmap k, if_neg heq]) (hother k heq)
  refine
    { live := ?_
      capacity := ?_
      ring := ?_
      advertised := by rw [hfiles]; exact inv.advertised
      cold := ?_ }
  · intro k x hk
    rcases hcases k x hk with ⟨_, rfl⟩ | ⟨_, hold⟩
    · exact hlive
    · exact inv.live k x hold
  · intro k x hk
    rcases hcases k x hk with ⟨_, rfl⟩ | ⟨_, hold⟩
    · exact hcap
    · exact inv.capacity k x hold
  · intro k x hk
    rcases hcases k x hk with ⟨rfl, rfl⟩ | ⟨hne, hold⟩
    · exact ⟨closed, cur, hrec, hcur, hvec⟩
    · rw [hother k hne]
      exact inv.ring k x hold
  · intro hdir d x
    rw [hfiles, inv.cold hdir d x]
    simp only [hsame]

/-- An append to a resident symbol extends its current period. -/
theorem HistoryInv.hit (inv : HistoryInv cfg s h) (e : Entry F)
    (hget : s.map.lookup symbol = some e)
    (hmap : ∀ k, s'.map.lookup k = if k = symbol
      then some { e with buf := (e.buf.push c).2, lastAccess := s.tick }
      else s.map.lookup k)
    (hfiles : s'.files = s.files) : HistoryInv cfg s' (h.record symbol c true) := by
  obtain ⟨closed, cur, hh, _, hvec⟩ := inv.ring symbol e hget
  have hcap := inv.capacity symbol e hget
  have hrec : h.record symbol c true symbol = closed ++ [cur ++ [c]] := by
    rw [Ledger.record, Function.update_self, if_pos rfl, hh, appendToLast_concat]
  refine inv.extend hmap hfiles (inv.live symbol e hget) ?_ hrec ?_ ?_ ?_
  · rw [RingBuffer.capacity_push, hcap]
  · exact List.append_ne_nil_of_right_ne_nil _ (List.cons_ne_nil _ _)
  · rw [← hcap] at hvec ⊢
    exact e.buf.toVec_push c cur hvec
  · rw [closedPeriods_resident s h symbol e hget, hh, List.dropLast_concat]

/-- Files change by at most an unreadable one and the map does not change. -/
theorem HistoryInv.keep (inv : HistoryInv cfg s h)
    (hmap : ∀ k, s'.map.lookup k = s.map.lookup k)
    (hadv : ∀ f ∈ s'.files, Advertised f)
    (hstored : ∀ d, stored s'.files d = stored s.files d) : HistoryInv cfg s' h where
  live := by
    intro k x hk
    rw [hmap k] at hk
    exact inv.live k x hk
  capacity := by
    intro k x hk
    rw [hmap k] at hk
    exact inv.capacity k x hk
  ring := by
    intro k x hk
    rw [hmap k] at hk
    exact inv.ring k x hk
  advertised := hadv
  cold := by
    intro hdir d x
    have hsame : ∀ k, spilledRows cfg s' h k = spilledRows cfg s h k :=
      fun k => spilledRows_congr h k (by rw [hmap k]) rfl
    rw [hstored d, inv.cold hdir d x]
    simp only [hsame]

/-- A failed spill adds no readable row. -/
theorem spill_error_stored {uni : Char → Bool} {fs fs' : List (ColdFile F)}
    {key : Symbol} {rows : List (Candle F)} {io : SpillIo} {err : SpillError}
    (hne : rows ≠ []) (hadv : ∀ f ∈ fs, Advertised f)
    (hspill : spill uni fs key rows io = some (fs', .error err)) :
    (∀ f ∈ fs', Advertised f) ∧ ∀ d, stored fs' d = stored fs d := by
  rcases spill_cases uni fs fs' key rows io _ hne hspill with ⟨hr, _⟩ | ⟨_, _, hfs⟩
  · exact absurd hr (by simp)
  · rcases hfs with rfl | ⟨name, hname, rfl⟩
    · exact ⟨hadv, fun _ => rfl⟩
    · constructor
      · intro f hf
        rcases List.mem_append.1 hf with hf | hf
        · exact hadv f hf
        · rw [List.mem_singleton] at hf
          exact hf ▸ hname
      · intro d
        have hnil : stored [(⟨escapeSymbol uni key, name, .truncated⟩ : ColdFile F)] d =
            [] := by
          rw [stored_singleton]
          exact ite_self []
        rw [stored_append, hnil, List.append_nil]

/-- A successful spill adds its rows to the directory of the symbol. -/
theorem spill_ok_stored {uni : Char → Bool} {fs fs' : List (ColdFile F)} {key : Symbol}
    {rows : List (Candle F)} {io : SpillIo} (hne : rows ≠ [])
    (hadv : ∀ f ∈ fs, Advertised f)
    (hspill : spill uni fs key rows io = some (fs', .ok ())) :
    (∀ f ∈ fs', Advertised f) ∧ ∀ d x, x ∈ stored fs' d ↔
      x ∈ stored fs d ∨ escapeSymbol uni key = d ∧ x ∈ rows := by
  rcases spill_cases uni fs fs' key rows io _ hne hspill with
    ⟨_, _, name, _, hname, rfl⟩ | ⟨_, hr, _⟩
  · constructor
    · intro f hf
      rcases List.mem_append.1 hf with hf | hf
      · exact hadv f hf
      · rw [List.mem_singleton] at hf
        exact hf ▸ hname
    · intro d x
      rw [stored_append, List.mem_append, stored_singleton]
      by_cases hd : escapeSymbol uni key = d
      · simp [hd, fileRows]
      · simp [hd]
  · cases hr

/-- The period that closes when a symbol leaves the map. -/
theorem HistoryInv.mem_spilledRows_leave (inv : HistoryInv cfg s h) {key : Symbol}
    {e : Entry F} (hkey : s.map.lookup key = some e)
    (hmap : ∀ k, s'.map.lookup k = if k = key then none else s.map.lookup k) (k : Symbol)
    (x : Candle F) :
    x ∈ spilledRows cfg s' h k ↔ x ∈ spilledRows cfg s h k ∨ k = key ∧
      x ∈ e.buf.toVec := by
  by_cases heq : k = key
  · subst heq
    obtain ⟨closed, cur, hh, _, hvec⟩ := inv.ring k e hkey
    have hgone : s'.map.lookup k = none := by rw [hmap k, if_pos rfl]
    have hrows : spilledRows cfg s' h k = spilledRows cfg s h k ++ e.buf.toVec := by
      rw [spilledRows, spilledRows, closedPeriods_absent s' h k hgone,
        closedPeriods_resident s h k e hkey, hh, List.dropLast_concat, List.map_append,
        List.flatten_append, hvec]
      simp
    rw [hrows, List.mem_append]
    simp
  · have hsame : spilledRows cfg s' h k = spilledRows cfg s h k :=
      spilledRows_congr h k (by rw [hmap k, if_neg heq]) rfl
    rw [hsame]
    simp [heq]

/-- An evicted symbol's current period closes, with its ring in cold storage. -/
theorem HistoryInv.leave (inv : HistoryInv cfg s h) {key : Symbol} {e : Entry F}
    {io : SpillIo} (hkey : s.map.lookup key = some e)
    (hmap : ∀ k, s'.map.lookup k = if k = key then none else s.map.lookup k)
    (hfiles : cfg.dataDir = false ∧ s'.files = s.files ∨ cfg.dataDir = true ∧
      spill cfg.uni s.files key e.buf.toVec io = some (s'.files, .ok ())) :
    HistoryInv cfg s' h := by
  have hsub : ∀ k x, s'.map.lookup k = some x → s.map.lookup k = some x := by
    intro k x hk
    rw [hmap k] at hk
    by_cases heq : k = key
    · rw [if_pos heq] at hk
      exact absurd hk (by simp)
    · rwa [if_neg heq] at hk
  have hne := inv.toVec_ne_nil key e hkey
  refine
    { live := fun k x hk => inv.live k x (hsub k x hk)
      capacity := fun k x hk => inv.capacity k x (hsub k x hk)
      ring := fun k x hk => inv.ring k x (hsub k x hk)
      advertised := ?_
      cold := ?_ }
  · rcases hfiles with ⟨_, hsame⟩ | ⟨_, hspill⟩
    · rw [hsame]
      exact inv.advertised
    · exact (spill_ok_stored hne inv.advertised hspill).1
  · intro hdir d x
    rcases hfiles with ⟨hfalse, _⟩ | ⟨_, hspill⟩
    · rw [hdir] at hfalse
      cases hfalse
    · rw [(spill_ok_stored hne inv.advertised hspill).2 d x, inv.cold hdir d x]
      simp only [inv.mem_spilledRows_leave hkey hmap]
      constructor
      · rintro (⟨k, hk, hx⟩ | ⟨hk, hx⟩)
        · exact ⟨k, hk, Or.inl hx⟩
        · exact ⟨key, hk, Or.inr ⟨rfl, hx⟩⟩
      · rintro ⟨k, hk, hx | ⟨rfl, hx⟩⟩
        · exact Or.inl ⟨k, hk, hx⟩
        · exact Or.inr ⟨hk, hx⟩

variable [F64 F]

/-- Inserting a symbol opens a new period. -/
theorem HistoryInv.enter (inv : HistoryInv cfg s h) (hcap : 0 < cfg.ringCapacity)
    {t : Nat} (hnone : s.map.lookup symbol = none)
    (hmap : ∀ k, s'.map.lookup k = if k = symbol then
      some ⟨firstRing cfg hcap c, t, false⟩
      else s.map.lookup k)
    (hfiles : s'.files = s.files) : HistoryInv cfg s' (h.record symbol c false) := by
  have hrec : h.record symbol c false symbol = h symbol ++ [[c]] := by
    rw [Ledger.record, Function.update_self]
    rfl
  refine inv.extend hmap hfiles rfl ?_ hrec (List.cons_ne_nil _ _) ?_
    (closedPeriods_absent s h symbol hnone)
  · rw [firstRing, RingBuffer.capacity_push, RingBuffer.capacity_new]
  · rw [firstRing, RingBuffer.toVec_new_push, rtake_of_length_le hcap]

/-- One returning call keeps the invariant. -/
theorem HistoryInv.append (inv : HistoryInv cfg s h) (io : SpillIo)
    (r : Except AppendError Unit) (hcall : s.tryAppend cfg symbol c io = some (s', r)) :
    (r = .ok () → HistoryInv cfg s' (h.record symbol c (s.isResident symbol))) ∧
      (∀ err, r = .error err → HistoryInv cfg s' h) := by
  have heffect := tryAppend_effect cfg s s' symbol c io r inv.live inv.toVec_ne_nil hcall
  cases heffect with
  | invalid _ hmap hfiles =>
      refine ⟨fun hr => absurd hr (by simp), fun _ _ => ?_⟩
      exact inv.keep (by rw [hmap]; exact fun _ => rfl)
        (by rw [hfiles]; exact inv.advertised) (by rw [hfiles]; exact fun _ => rfl)
  | hit e _ hget hmap hfiles =>
      refine ⟨fun _ => ?_, fun _ hr => absurd hr (by simp)⟩
      have hres : s.isResident symbol = true := by rw [Store.isResident, hget]; rfl
      rw [hres]
      exact inv.hit e hget hmap hfiles
  | admitted hcap _ hnone hmap hfiles =>
      refine ⟨fun _ => ?_, fun _ hr => absurd hr (by simp)⟩
      have hres : s.isResident symbol = false := by rw [Store.isResident, hnone]; rfl
      rw [hres]
      exact inv.enter hcap hnone hmap hfiles
  | evicted hcap key e _ hnone hkey hmap hfiles =>
      refine ⟨fun _ => ?_, fun _ hr => absurd hr (by simp)⟩
      have hres : s.isResident symbol = false := by rw [Store.isResident, hnone]; rfl
      rw [hres]
      -- the victim leaves first, then the new symbol enters
      have hleft :
          HistoryInv cfg { s with map := s.map.erase key, files := s'.files } h := by
        refine inv.leave hkey ?_ hfiles
        intro k
        by_cases heq : k = key
        · rw [heq, if_pos rfl, AList.lookup_erase]
        · rw [if_neg heq, AList.lookup_erase_ne heq]
      have hne : symbol ≠ key := by
        rintro rfl
        rw [hnone] at hkey
        exact absurd hkey (by simp)
      have henter : ∀ k, s'.map.lookup k =
          if k = symbol then some ⟨firstRing cfg hcap c, s.tick, false⟩
          else (s.map.erase key).lookup k := by
        intro k
        rw [hmap k]
        by_cases hk : k = key
        · rw [if_pos hk, hk, AList.lookup_erase]
        · rw [if_neg hk, AList.lookup_erase_ne hk]
      exact hleft.enter hcap ((AList.lookup_erase_ne hne).trans hnone) henter rfl
  | refused key e err _ hnone hkey hmap hspill =>
      refine ⟨fun hr => absurd hr (by simp), fun _ _ => ?_⟩
      obtain ⟨hadv, hstored⟩ :=
        spill_error_stored (inv.toVec_ne_nil key e hkey) inv.advertised hspill
      exact inv.keep hmap hadv hstored

/-- Every reachable store agrees with the ledger of its run. -/
theorem Run.historyInv (hrun : Run cfg s h) : HistoryInv cfg s h := by
  induction hrun with
  | start => exact historyInv_new cfg
  | accepted symbol c io _ hcall ih => exact (ih.append io _ hcall).1 rfl
  | rejected symbol c io err _ hcall ih => exact (ih.append io _ hcall).2 err rfl

end Preservation

end Candlestore
