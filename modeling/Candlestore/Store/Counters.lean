import Candlestore.Store.Recency

/-!
# The width of the counters

The source keeps the version, the tick, the statistics and the stamps in `u64`
words; the model has natural numbers.  A call raises each of the counters by at
most one, except for the spilled bytes, which grow by a ring's worth
(`Ahead`).  So a run that is shorter than `2 ^ 64` calls, and spills fewer bytes,
never wraps a word: reducing every counter and every stamp changes nothing
(`words_eq_self`), and the victim of the next eviction is the one that the
source finds among its words.
-/

namespace Candlestore

open Lib

variable {F : Type}

/-- The entry with its stamp in a `u64`. -/
def Entry.word (e : Entry F) : Entry F := { e with lastAccess := e.lastAccess % 2 ^ 64 }

/-- The map with every stamp in a `u64`. -/
def stampWords (map : AList (fun _ : Symbol => Entry F)) :
    AList (fun _ : Symbol => Entry F) where
  entries := map.entries.map fun e => ⟨e.1, e.2.word⟩
  nodupKeys := by
    rw [List.NodupKeys, List.keys, List.map_map]
    exact map.nodupKeys

/-- The store as the source has it, with every counter in a `u64`. -/
def Store.words (s : Store F) : Store F where
  map := stampWords s.map
  files := s.files
  version := s.version % 2 ^ 64
  tick := s.tick % 2 ^ 64
  evictions := s.evictions % 2 ^ 64
  parquetSpillBytes := s.parquetSpillBytes % 2 ^ 64
  parquetSpillErrors := s.parquetSpillErrors % 2 ^ 64
  invalidCandles := s.invalidCandles % 2 ^ 64
  outOfOrder := s.outOfOrder % 2 ^ 64

theorem stampWords_eq_self {map : AList (fun _ : Symbol => Entry F)}
    (h : ∀ k e, map.lookup k = some e → e.lastAccess < 2 ^ 64) :
    stampWords map = map := by
  refine AList.ext ?_
  refine (List.map_congr_left fun e he => ?_).trans (List.map_id _)
  have hlt := h e.1 e.2 (AList.mem_lookup_iff.2 he)
  rw [Entry.word, Nat.mod_eq_of_lt hlt]
  rfl

/-- The counters of `s'` are those of `s` after at most `n` calls. -/
structure Ahead (cfg : Config) (s s' : Store F) (n : Nat) : Prop where
  version : s'.version ≤ s.version + n
  tick : s'.tick ≤ s.tick + n
  evictions : s'.evictions ≤ s.evictions + n
  spillBytes : s'.parquetSpillBytes ≤
    s.parquetSpillBytes + n * (cfg.ringCapacity * candleBytes)
  spillErrors : s'.parquetSpillErrors ≤ s.parquetSpillErrors + n
  invalidCandles : s'.invalidCandles ≤ s.invalidCandles + n
  outOfOrder : s'.outOfOrder ≤ s.outOfOrder + n

namespace Ahead

variable {cfg : Config} {s s' s'' : Store F}

theorem refl (s : Store F) : Ahead cfg s s 0 := by
  constructor <;> simp

theorem trans {m n : Nat} (h : Ahead cfg s s' m) (h' : Ahead cfg s' s'' n) :
    Ahead cfg s s'' (m + n) where
  version := h'.version.trans (by have := h.version; omega)
  tick := h'.tick.trans (by have := h.tick; omega)
  evictions := h'.evictions.trans (by have := h.evictions; omega)
  spillBytes := h'.spillBytes.trans (by
    have := h.spillBytes
    rw [Nat.add_mul]
    omega)
  spillErrors := h'.spillErrors.trans (by have := h.spillErrors; omega)
  invalidCandles := h'.invalidCandles.trans (by have := h.invalidCandles; omega)
  outOfOrder := h'.outOfOrder.trans (by have := h.outOfOrder; omega)

end Ahead

/-! ## One call -/

/-- Every ring has the capacity of the store. -/
def RingsSized (cfg : Config) (map : AList (fun _ : Symbol => Entry F)) : Prop :=
  ∀ k e, map.lookup k = some e → e.buf.capacity = cfg.ringCapacity

theorem EvictCounted.spillBytes_le {cfg : Config} {s s' : Store F} {key : Symbol}
    {r : Except AppendError Unit} (h : EvictCounted s s' key r)
    (hrings : RingsSized cfg s.map) :
    s'.parquetSpillBytes ≤ s.parquetSpillBytes + cfg.ringCapacity * candleBytes := by
  rcases h.spillBytes with hsame | ⟨e, hkey, hbytes⟩
  · rw [hsame]
    exact Nat.le_add_right _ _
  · have hlen : e.buf.toVec.length ≤ cfg.ringCapacity := by
      rw [e.buf.length_toVec, ← hrings key e hkey]
      exact e.buf.len_le
    rw [hbytes]
    exact Nat.add_le_add_left (Nat.mul_le_mul_right _ hlen) _

section Calls

variable [F64 F] {cfg : Config} {s s' : Store F} {symbol : Symbol} {c : Candle F}
  {io : SpillIo} {r : Except AppendError Unit}

/-- The slow path, after the tick of the call. -/
theorem tryInsertNew_ahead {tick : Nat} (hrings : RingsSized cfg s.map)
    (h : Store.tryInsertNew cfg s symbol c tick io = some (s', r)) :
    s'.tick = s.tick ∧ Ahead cfg s s' 1 := by
  cases hget : s.map.lookup symbol with
  | some e =>
      unfold Store.tryInsertNew at h
      split at h
      · simp only [hget, Option.bind_eq_bind, Option.bind_eq_some_iff, Option.pure_def,
          Option.some.injEq, Prod.mk.injEq] at h
        obtain ⟨s₁, hpush, rfl, rfl⟩ := h
        obtain ⟨map, outOfOrder, hle, rfl⟩ := pushAndPublish_counters hpush
        exact ⟨rfl, by constructor <;> simp [hle]⟩
      · cases h
  | none =>
      rcases tryInsertNew_cases h hget with
        ⟨hcap, s₁, rfl, rfl, ⟨_, rfl⟩ | ⟨_, key, _, hevict⟩⟩ | ⟨key, err, rfl, _, hevict⟩
      · exact ⟨rfl, by constructor <;> simp [Store.insertNew]⟩
      · have hcount := evict_counters hevict
        have hbytes := hcount.spillBytes_le hrings
        obtain ⟨hver, htick, hinv, hord, hev, _, herr, _⟩ := hcount
        exact ⟨htick, by constructor <;> simp [Store.insertNew, *]⟩
      · have hcount := evict_counters hevict
        have hbytes := hcount.spillBytes_le hrings
        obtain ⟨hver, htick, hinv, hord, hev, _, herr, _⟩ := hcount
        exact ⟨htick, by constructor <;> simp [*]⟩

theorem tryAppend_ahead (hrings : RingsSized cfg s.map)
    (h : s.tryAppend cfg symbol c io = some (s', r)) : Ahead cfg s s' 1 := by
  unfold Store.tryAppend at h
  cases hvalid : c.isValid with
  | false =>
      simp only [hvalid, Bool.not_false, if_true, Option.some.injEq, Prod.mk.injEq] at h
      obtain ⟨rfl, rfl⟩ := h
      constructor <;> simp
  | true =>
      simp only [hvalid, Bool.not_true, Bool.false_eq_true, if_false] at h
      have hslow : ∀ map, RingsSized cfg map →
          Store.tryInsertNew cfg { s with tick := s.tick + 1, map := map } symbol c
              s.tick io = some (s', r) →
          Ahead cfg s s' 1 := by
        intro map hsized hcall
        obtain ⟨htick, hahead⟩ := tryInsertNew_ahead hsized hcall
        exact { hahead with tick := htick.le }
      cases hget : s.map.lookup symbol with
      | none =>
          simp only [hget] at h
          exact hslow s.map hrings h
      | some e =>
          simp only [hget] at h
          split at h
          · next s₁ hpush =>
              obtain ⟨rfl, rfl⟩ := Prod.mk.inj (Option.some.inj h)
              obtain ⟨map, outOfOrder, hle, rfl⟩ := pushAndPublish_counters hpush
              constructor <;> simp [hle]
          · refine hslow _ ?_ h
            intro k x hx
            rw [lookup_insert_if] at hx
            split at hx
            · cases hx
              exact hrings symbol e hget
            · exact hrings k x hx

/-! ## Whole runs -/

/-- A run of `n` calls leaves no counter above `n`, the spilled bytes apart. -/
theorem ahead_of_exec {calls : List (Call F)} {l : Logged F}
    (hrun : exec (loggedStep cfg) Logged.start calls = some l) :
    (∃ h, Run cfg l.store h) ∧ Ahead cfg Store.new l.store calls.length := by
  refine exec_induction (P := fun calls l => (∃ h, Run cfg l.store h) ∧
    Ahead cfg Store.new l.store calls.length) ⟨⟨_, Run.start⟩, Ahead.refl _⟩ ?_ hrun
  rintro calls call l l' _ ⟨⟨h, hled⟩, hahead⟩ hstep
  rw [loggedStep, Option.bind_eq_bind, Option.bind_eq_some_iff] at hstep
  obtain ⟨⟨s', result⟩, hcall, hrest⟩ := hstep
  have hone := tryAppend_ahead hled.historyInv.capacity hcall
  rw [List.length_append]
  cases result with
  | ok u =>
      cases hrest
      exact ⟨⟨_, hled.accepted _ _ _ hcall⟩, hahead.trans hone⟩
  | error err =>
      cases hrest
      exact ⟨⟨_, hled.rejected _ _ _ err hcall⟩, hahead.trans hone⟩

/-- In a run of fewer than `2 ^ 64` calls, with room for the bytes they
can spill, no word wraps. -/
theorem words_eq_self {calls : List (Call F)} {l : Logged F}
    (hrun : exec (loggedStep cfg) Logged.start calls = some l)
    (hcalls : calls.length < 2 ^ 64)
    (hbytes : calls.length * (cfg.ringCapacity * candleBytes) < 2 ^ 64) :
    l.store.words = l.store := by
  obtain ⟨⟨h, hled⟩, hahead⟩ := ahead_of_exec hrun
  have hzero : ∀ {x y : Nat}, x ≤ 0 + y → y < 2 ^ 64 → x % 2 ^ 64 = x := by
    intro x y hle hlt
    exact Nat.mod_eq_of_lt (by omega)
  have hmap : stampWords l.store.map = l.store.map := by
    refine stampWords_eq_self fun k e he => ?_
    have hbelow := hled.stampInv.below k e he
    have htick : l.store.tick ≤ 0 + calls.length := hahead.tick
    omega
  rw [Store.words, hmap, hzero hahead.version hcalls, hzero hahead.tick hcalls,
    hzero hahead.evictions hcalls, hzero hahead.spillBytes hbytes,
    hzero hahead.spillErrors hcalls, hzero hahead.invalidCandles hcalls,
    hzero hahead.outOfOrder hcalls]

end Calls

end Candlestore
