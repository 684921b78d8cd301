import Candlestore.Store.Queries

/-!
# Rejected appends

A `try_append` that returns an error has counted the error, and with a failed
spill also taken a tick, flagged its victim and cleared the flag again, and may
have left a file without a readable row.  This file proves that none of it can
be observed: the queries, the counters and the next victim are those of the
store before the call, and the next append to a resident symbol takes the fast
path to a store that looks the same.

The victim is the entry with the smallest stamp.  It does not depend on the
order in which the map is walked because no two entries share a stamp
(`StampInv`).
-/

namespace Candlestore

open Lib

variable {F : Type}

/-! ## The counters of a call -/

/-- What an eviction of `key`, or the failure of one, does to the counters. -/
structure EvictCounted (s s' : Store F) (key : Symbol) (r : Except AppendError Unit) :
    Prop where
  version : s'.version = s.version
  tick : s'.tick = s.tick
  invalidCandles : s'.invalidCandles = s.invalidCandles
  outOfOrder : s'.outOfOrder = s.outOfOrder
  evictions : s'.evictions ≤ s.evictions + 1
  failed : ∀ err, r = .error err → s'.evictions = s.evictions
  spillErrors : s'.parquetSpillErrors ≤ s.parquetSpillErrors + 1
  spillBytes : s'.parquetSpillBytes = s.parquetSpillBytes ∨
    ∃ e, s.map.lookup key = some e ∧
      s'.parquetSpillBytes = s.parquetSpillBytes + e.buf.toVec.length * candleBytes

theorem evict_counters {cfg : Config} {s s' : Store F} {key : Symbol} {io : SpillIo}
    {r : Except AppendError Unit} (h : s.evict cfg key io = some (s', r)) :
    EvictCounted s s' key r := by
  unfold Store.evict at h
  cases hkey : s.map.lookup key with
  | none =>
      simp only [hkey, Option.some.injEq, Prod.mk.injEq] at h
      obtain ⟨rfl, rfl⟩ := h
      exact ⟨rfl, rfl, rfl, rfl, Nat.le_refl _, (fun _ hr => by cases hr),
        Nat.le_succ _, .inl rfl⟩
  | some e =>
      simp only [hkey] at h
      split at h
      · simp only [Option.some.injEq, Prod.mk.injEq] at h
        obtain ⟨rfl, rfl⟩ := h
        exact ⟨rfl, rfl, rfl, rfl, Nat.le_refl _, (fun _ hr => by cases hr),
          Nat.le_succ _,
          .inl rfl⟩
      · simp only [Option.bind_eq_bind, Option.bind_eq_some_iff] at h
        obtain ⟨⟨files, result⟩, _, hres⟩ := h
        cases result with
        | ok u =>
            simp only [Option.pure_def, Option.some.injEq, Prod.mk.injEq] at hres
            obtain ⟨rfl, rfl⟩ := hres
            exact ⟨rfl, rfl, rfl, rfl, Nat.le_refl _, (fun _ hr => by cases hr),
              Nat.le_succ _,
              .inr ⟨e, hkey, rfl⟩⟩
        | error err =>
            simp only [Option.pure_def, Option.some.injEq, Prod.mk.injEq] at hres
            obtain ⟨rfl, rfl⟩ := hres
            exact ⟨rfl, rfl, rfl, rfl, Nat.le_succ _,
              fun _ _ => rfl, Nat.le_refl _, .inl rfl⟩

/-- The counters after a call, by its result. -/
structure Counted (s s' : Store F) (r : Except AppendError Unit) : Prop where
  accepted : r = .ok () → s'.version = s.version + 1
  rejected : ∀ err, r = .error err →
    s'.version = s.version ∧ s'.evictions = s.evictions ∧ s'.outOfOrder = s.outOfOrder

/-- A push that publishes raises the version, and the count of candles out of order. -/
theorem pushAndPublish_counters {s s' : Store F} {symbol : Symbol} {e : Entry F}
    {c : Candle F} (h : s.pushAndPublish symbol e c = some s') :
    ∃ map outOfOrder, outOfOrder ≤ s.outOfOrder + 1 ∧
      s' = { s with
        map := map
        outOfOrder := outOfOrder
        version := s.version + 1 } := by
  unfold Store.pushAndPublish at h
  split at h
  · cases h
  · refine ⟨_, _, ?_, (Option.some.inj h).symm⟩
    split
    · exact Nat.le_refl _
    · exact Nat.le_succ _

section Calls

variable [F64 F] {cfg : Config} {s s' : Store F} {symbol : Symbol} {c : Candle F}
  {io : SpillIo} {r : Except AppendError Unit}

theorem tryInsertNew_counters {tick : Nat}
    (h : Store.tryInsertNew cfg s symbol c tick io = some (s', r)) :
    s'.tick = s.tick ∧ s'.invalidCandles = s.invalidCandles ∧ Counted s s' r := by
  cases hget : s.map.lookup symbol with
  | some e =>
      unfold Store.tryInsertNew at h
      split at h
      · simp only [hget, Option.bind_eq_bind, Option.bind_eq_some_iff, Option.pure_def,
          Option.some.injEq, Prod.mk.injEq] at h
        obtain ⟨s₁, hpush, rfl, rfl⟩ := h
        obtain ⟨map, outOfOrder, _, rfl⟩ := pushAndPublish_counters hpush
        exact ⟨rfl, rfl, fun _ => rfl, fun _ hr => by cases hr⟩
      · cases h
  | none =>
      rcases tryInsertNew_cases h hget with
        ⟨hcap, s₁, rfl, rfl, ⟨_, rfl⟩ | ⟨_, key, _, hevict⟩⟩ | ⟨key, err, rfl, _, hevict⟩
      · exact ⟨rfl, rfl, fun _ => rfl, fun _ hr => by cases hr⟩
      · have hcount := evict_counters hevict
        refine ⟨hcount.tick, hcount.invalidCandles, fun _ => ?_, fun _ hr => by cases hr⟩
        show s₁.version + 1 = s.version + 1
        rw [hcount.version]
      · have hcount := evict_counters hevict
        exact ⟨hcount.tick, hcount.invalidCandles, (fun hr => by cases hr),
          fun _ _ => ⟨hcount.version, hcount.failed err rfl, hcount.outOfOrder⟩⟩

/-- A valid candle takes a tick and an invalid one is counted. -/
theorem tryAppend_counters (h : s.tryAppend cfg symbol c io = some (s', r)) :
    s'.tick = s.tick + c.isValid.toNat ∧
      s'.invalidCandles = s.invalidCandles + (!c.isValid).toNat ∧ Counted s s' r := by
  unfold Store.tryAppend at h
  cases hvalid : c.isValid with
  | false =>
      simp only [hvalid, Bool.not_false, if_true, Option.some.injEq, Prod.mk.injEq] at h
      obtain ⟨rfl, rfl⟩ := h
      exact ⟨rfl, rfl, (fun hr => by cases hr), fun _ _ => ⟨rfl, rfl, rfl⟩⟩
  | true =>
      simp only [hvalid, Bool.not_true, Bool.false_eq_true, if_false] at h
      have hslow : ∀ m,
          Store.tryInsertNew cfg { s with tick := s.tick + 1, map := m } symbol c
          s.tick io = some (s', r) → s'.tick = s.tick + 1 ∧
            s'.invalidCandles = s.invalidCandles ∧ Counted s s' r := by
        intro m hcall
        obtain ⟨htick, hinv, hacc, hrej⟩ := tryInsertNew_counters hcall
        exact ⟨htick, hinv, hacc, hrej⟩
      cases hget : s.map.lookup symbol with
      | none =>
          simp only [hget] at h
          exact hslow s.map h
      | some e =>
          simp only [hget] at h
          split at h
          · next s₁ hpush =>
              obtain ⟨rfl, rfl⟩ := Prod.mk.inj (Option.some.inj h)
              obtain ⟨map, outOfOrder, _, rfl⟩ := pushAndPublish_counters hpush
              exact ⟨rfl, rfl, fun _ => rfl, fun _ hr => by cases hr⟩
          · exact hslow _ h

end Calls

/-! ## The next victim -/

/-- No entry of the map was used before the entry of `key`. -/
def Oldest (map : AList (fun _ : Symbol => Entry F)) (key : Symbol) : Prop :=
  ∃ e, map.lookup key = some e ∧ ∀ k x, map.lookup k = some x →
    e.lastAccess ≤ x.lastAccess

/-- No two entries carry the same stamp. -/
def DistinctStamps (map : AList (fun _ : Symbol => Entry F)) : Prop :=
  ∀ k₁ k₂ e₁ e₂, map.lookup k₁ = some e₁ → map.lookup k₂ = some e₂ →
    e₁.lastAccess = e₂.lastAccess → k₁ = k₂

theorem evictKey_oldest {map : AList (fun _ : Symbol => Entry F)} {key : Symbol}
    (h : evictKey map = some key) : Oldest map key := by
  obtain ⟨⟨k, e⟩, hmin, rfl⟩ := Option.map_eq_some_iff.1 h
  refine ⟨e, AList.mem_lookup_iff.2 (List.argmin_mem hmin), ?_⟩
  intro k' x hx
  have hle := List.le_of_mem_argmin (AList.mem_lookup_iff.1 hx) (Option.mem_def.2 hmin)
  exact hle

theorem exists_evictKey {map : AList (fun _ : Symbol => Entry F)} {key : Symbol}
    {e : Entry F} (h : map.lookup key = some e) : ∃ k, evictKey map = some k := by
  cases hmin : map.entries.argmin fun e => e.2.lastAccess with
  | some x => exact ⟨x.1, by rw [evictKey, hmin]; rfl⟩
  | none =>
      have hnil : map.entries = [] := List.argmin_eq_none.1 hmin
      have hmem := AList.mem_lookup_iff.1 h
      rw [hnil] at hmem
      exact absurd hmem List.not_mem_nil

/-- With distinct stamps the victim is the oldest entry, in whatever order the
map is walked. -/
theorem evictKey_eq_some_iff {map : AList (fun _ : Symbol => Entry F)}
    (hdistinct : DistinctStamps map) (key : Symbol) :
    evictKey map = some key ↔ Oldest map key := by
  refine ⟨evictKey_oldest, ?_⟩
  rintro ⟨e, he, hle⟩
  obtain ⟨k, hk⟩ := exists_evictKey he
  obtain ⟨x, hx, hle'⟩ := evictKey_oldest hk
  have heq : k = key :=
    hdistinct k key x e hx he (Nat.le_antisymm (hle' key e he) (hle k x hx))
  rw [hk, heq]

theorem evictKey_congr {map map' : AList (fun _ : Symbol => Entry F)}
    (hdistinct : DistinctStamps map) (hdistinct' : DistinctStamps map')
    (h : ∀ key, Oldest map' key ↔ Oldest map key) : evictKey map' = evictKey map := by
  apply Option.ext
  intro key
  rw [evictKey_eq_some_iff hdistinct', evictKey_eq_some_iff hdistinct]
  exact h key

/-- Once `symbol` has the newest stamp, whether an entry is the oldest no
longer depends on the value of that stamp. -/
theorem oldest_touch {map map' : AList (fun _ : Symbol => Entry F)} {symbol : Symbol}
    {e : Entry F} (hmap : ∀ k, map'.lookup k = if k = symbol then some e
      else map.lookup k)
    (hnewest : ∀ k x, map.lookup k = some x → x.lastAccess < e.lastAccess)
    (key : Symbol) :
    Oldest map' key ↔ if key = symbol then ∀ k, k ≠ symbol → map.lookup k = none
      else ∃ x, map.lookup key = some x ∧
        ∀ k y, k ≠ symbol → map.lookup k = some y → x.lastAccess ≤ y.lastAccess := by
  by_cases hkey : key = symbol
  · rw [if_pos hkey]
    constructor
    · rintro ⟨x, hx, hle⟩ k hk
      rw [hmap key, if_pos hkey, Option.some.injEq] at hx
      cases hget : map.lookup k with
      | none => rfl
      | some y =>
          have hold := hle k y (by rw [hmap k, if_neg hk, hget])
          have hnew := hnewest k y hget
          rw [← hx] at hold
          omega
    · intro hnone
      refine ⟨e, by rw [hmap key, if_pos hkey], ?_⟩
      intro k x hx
      rw [hmap k] at hx
      by_cases hk : k = symbol
      · rw [if_pos hk, Option.some.injEq] at hx
        rw [hx]
      · rw [if_neg hk, hnone k hk] at hx
        cases hx
  · rw [if_neg hkey]
    constructor
    · rintro ⟨x, hx, hle⟩
      rw [hmap key, if_neg hkey] at hx
      refine ⟨x, hx, ?_⟩
      intro k y hk hy
      exact hle k y (by rw [hmap k, if_neg hk, hy])
    · rintro ⟨x, hx, hle⟩
      refine ⟨x, by rw [hmap key, if_neg hkey, hx], ?_⟩
      intro k y hy
      rw [hmap k] at hy
      by_cases hk : k = symbol
      · rw [if_pos hk, Option.some.injEq] at hy
        rw [← hy]
        exact (hnewest key x hx).le
      · rw [if_neg hk] at hy
        exact hle k y hk hy

/-- Every stamp is a tick that was handed out, to one entry only. -/
structure StampInv (s : Store F) : Prop where
  below : ∀ k e, s.map.lookup k = some e → e.lastAccess < s.tick
  distinct : DistinctStamps s.map

/-- Entries that leave or stay keep their stamps distinct. -/
theorem StampInv.keep {s s' : Store F} (inv : StampInv s) (htick : s.tick ≤ s'.tick)
    (hmap : ∀ k e, s'.map.lookup k = some e → s.map.lookup k = some e) :
    StampInv s' where
  below := by
    intro k e he
    exact Nat.lt_of_lt_of_le (inv.below k e (hmap k e he)) htick
  distinct := by
    intro k₁ k₂ e₁ e₂ he₁ he₂ heq
    exact inv.distinct k₁ k₂ e₁ e₂ (hmap k₁ e₁ he₁) (hmap k₂ e₂ he₂) heq

/-- The entry that gets the tick of the call is newer than those that stay. -/
theorem StampInv.touch {s s' : Store F} {symbol : Symbol} {x : Entry F}
    {rest : Symbol → Option (Entry F)} (inv : StampInv s) (htick : s'.tick = s.tick + 1)
    (hx : x.lastAccess = s.tick)
    (hmap : ∀ k, s'.map.lookup k = if k = symbol then some x else rest k)
    (hrest : ∀ k e, rest k = some e → s.map.lookup k = some e) : StampInv s' := by
  have hcases : ∀ k e, s'.map.lookup k = some e →
      (k = symbol ∧ e.lastAccess = s.tick) ∨
      (s.map.lookup k = some e ∧ e.lastAccess < s.tick) := by
    intro k e he
    rw [hmap k] at he
    by_cases hk : k = symbol
    · rw [if_pos hk, Option.some.injEq] at he
      exact Or.inl ⟨hk, he ▸ hx⟩
    · rw [if_neg hk] at he
      exact Or.inr ⟨hrest k e he, inv.below k e (hrest k e he)⟩
  refine ⟨?_, ?_⟩
  · intro k e he
    rcases hcases k e he with ⟨_, hstamp⟩ | ⟨_, hlt⟩ <;> omega
  · intro k₁ k₂ e₁ e₂ he₁ he₂ heq
    rcases hcases k₁ e₁ he₁ with ⟨rfl, h₁⟩ | ⟨hold₁, h₁⟩
    · rcases hcases k₂ e₂ he₂ with ⟨rfl, _⟩ | ⟨_, h₂⟩
      · rfl
      · omega
    · rcases hcases k₂ e₂ he₂ with ⟨rfl, h₂⟩ | ⟨hold₂, _⟩
      · omega
      · exact inv.distinct k₁ k₂ e₁ e₂ hold₁ hold₂ heq

theorem stampInv_new : StampInv (Store.new : Store F) where
  below := by
    intro k e he
    simp [Store.new] at he
  distinct := by
    intro k₁ k₂ e₁ e₂ he₁
    simp [Store.new] at he₁

section Stamps

variable [F64 F] {cfg : Config} {s s' : Store F} {h : Ledger F} {symbol : Symbol}
  {c : Candle F} {io : SpillIo} {r : Except AppendError Unit}

theorem StampInv.append (inv : StampInv s) (hist : HistoryInv cfg s h)
    (hcall : s.tryAppend cfg symbol c io = some (s', r)) : StampInv s' := by
  have htick := (tryAppend_counters hcall).1
  have heffect := tryAppend_effect cfg s s' symbol c io r hist.live hist.toVec_ne_nil
    hcall
  cases heffect with
  | invalid _ hmap _ =>
      refine inv.keep (htick ▸ Nat.le_add_right _ _) ?_
      rw [hmap]
      exact fun _ _ hx => hx
  | hit e hvalid hget hmap _ =>
      rw [hvalid] at htick
      exact inv.touch htick rfl hmap fun _ _ hx => hx
  | admitted hcap hvalid _ hmap _ =>
      rw [hvalid] at htick
      exact inv.touch htick rfl hmap fun _ _ hx => hx
  | evicted hcap key e hvalid _ _ hmap _ =>
      rw [hvalid] at htick
      refine inv.touch htick rfl hmap ?_
      intro k x hx
      split at hx
      · cases hx
      · exact hx
  | refused key e err _ _ _ hmap _ =>
      refine inv.keep (htick ▸ Nat.le_add_right _ _) ?_
      intro k x hx
      rw [← hmap k, hx]

theorem Run.stampInv (hrun : Run cfg s h) : StampInv s := by
  induction hrun with
  | start => exact stampInv_new
  | accepted symbol c io hprev hcall ih => exact ih.append hprev.historyInv hcall
  | rejected symbol c io err hprev hcall ih => exact ih.append hprev.historyInv hcall

end Stamps

/-! ## An unreadable file -/

/-- A new file is listed somewhere between the others, which keep their order. -/
def OsOrder.Steady (o : OsOrder F) : Prop :=
  ∀ fs f, ∃ a b, o.readDir (fs ++ [f]) = a ++ f :: b ∧ o.readDir fs = a ++ b

/-- Under `o'` the directories with the file `f` are listed as they are under
`o` without it. -/
def ListsAlike (o o' : OsOrder F) (fs : List (ColdFile F)) (f : ColdFile F) : Prop :=
  ∀ (d : List Char) (g : ColdFile F → List (Candle F)), g f = [] →
    (o'.readDir ((fs ++ [f]).filter fun x => x.dir == d)).flatMap g =
      (o.readDir (fs.filter fun x => x.dir == d)).flatMap g

theorem coldRows_truncated {f : ColdFile F} (h : f.body = .truncated)
    (fromTs toTs : Int) : coldRows f fromTs toTs = [] := by
  simp [coldRows, fileRows, readFile, h]

theorem queryCold_append_truncated {o o' : OsOrder F} {fs : List (ColdFile F)}
    {f : ColdFile F} (hbody : f.body = .truncated)
    (hsort : o'.sortUnstable = o.sortUnstable) (hlist : ListsAlike o o' fs f)
    (uni : Char → Bool) (symbol : Symbol) (fromTs toTs : Int) :
    queryCold uni o' (fs ++ [f]) symbol fromTs toTs =
      queryCold uni o fs symbol fromTs toTs := by
  have hrows := hlist (escapeSymbol uni symbol) (fun x => coldRows x fromTs toTs)
    (coldRows_truncated hbody fromTs toTs)
  simp only [queryCold, hsort, hrows]

theorem filter_dir_same (fs : List (ColdFile F)) (f : ColdFile F) :
    (fs ++ [f]).filter (fun x => x.dir == f.dir) =
      (fs.filter fun x => x.dir == f.dir) ++ [f] := by
  simp

theorem filter_dir_other (fs : List (ColdFile F)) {f : ColdFile F} {d : List Char}
    (h : f.dir ≠ d) :
    (fs ++ [f]).filter (fun x => x.dir == d) = fs.filter fun x => x.dir == d := by
  simp [h]

theorem OsOrder.Steady.listsAlike {o : OsOrder F} (h : o.Steady) (fs : List (ColdFile F))
    (f : ColdFile F) : ListsAlike o o fs f := by
  intro d g hg
  by_cases hd : f.dir = d
  · subst hd
    obtain ⟨a, b, hnew, hold⟩ := h (fs.filter fun x => x.dir == f.dir) f
    rw [filter_dir_same, hnew, hold]
    simp [hg]
  · rw [filter_dir_other fs hd]

/-- Any listing of the files extends to one with the new file. -/
theorem exists_listsAlike_after (o : OsOrder F) (fs : List (ColdFile F))
    (f : ColdFile F) :
    ∃ o' : OsOrder F, o'.sortUnstable = o.sortUnstable ∧ ListsAlike o o' fs f := by
  classical
  let dir := fs.filter fun x => x.dir == f.dir
  let o' : OsOrder F :=
    { o with
      readDir := fun l => if l = dir ++ [f] then o.readDir dir ++ [f] else o.readDir l
      readDir_perm := by
        intro l
        split
        · next h =>
            rw [h]
            exact (o.readDir_perm dir).append_right [f]
        · exact o.readDir_perm l }
  refine ⟨o', rfl, ?_⟩
  intro d g hg
  by_cases hd : f.dir = d
  · subst hd
    rw [filter_dir_same]
    show (if dir ++ [f] = dir ++ [f] then o.readDir dir ++ [f] else _).flatMap g = _
    rw [if_pos rfl]
    simp [dir, hg]
  · rw [filter_dir_other fs hd]
    have hne : (fs.filter fun x => x.dir == d) ≠ dir ++ [f] := by
      intro heq
      have hmem : f ∈ fs.filter fun x => x.dir == d := by rw [heq]; simp
      exact hd (by simpa using (List.mem_filter.1 hmem).2)
    show (if _ = dir ++ [f] then _ else o.readDir _).flatMap g = _
    rw [if_neg hne]

/-- Any listing with the new file restricts to one of the files before. -/
theorem exists_listsAlike_before (o' : OsOrder F) (fs : List (ColdFile F))
    (f : ColdFile F) :
    ∃ o : OsOrder F, o'.sortUnstable = o.sortUnstable ∧ ListsAlike o o' fs f := by
  classical
  let dir := fs.filter fun x => x.dir == f.dir
  have hmem : f ∈ o'.readDir (dir ++ [f]) :=
    (o'.readDir_perm _).mem_iff.2 (List.mem_append_right dir (List.mem_singleton_self f))
  obtain ⟨a, b, hab⟩ := List.append_of_mem hmem
  have hperm : (a ++ b).Perm dir := by
    have h := (o'.readDir_perm (dir ++ [f]))
    rw [hab] at h
    exact (List.perm_middle.symm.trans
      (h.trans (List.perm_append_singleton f dir))).cons_inv
  let o : OsOrder F :=
    { o' with
      readDir := fun l => if l = dir then a ++ b else o'.readDir l
      readDir_perm := by
        intro l
        split
        · next h => rw [h]; exact hperm
        · exact o'.readDir_perm l }
  refine ⟨o, rfl, ?_⟩
  intro d g hg
  by_cases hd : f.dir = d
  · subst hd
    rw [filter_dir_same]
    show (o'.readDir (dir ++ [f])).flatMap g =
      (if dir = dir then a ++ b else _).flatMap g
    rw [if_pos rfl, hab]
    simp [hg]
  · rw [filter_dir_other fs hd]
    show _ = (if (fs.filter fun x => x.dir == d) = dir then a ++ b
      else o'.readDir _).flatMap g
    split
    · next heq =>
        -- two directories with the same files are both empty
        have hnil : dir = [] := by
          apply List.eq_nil_iff_forall_not_mem.2
          intro x hx
          have hx' : x ∈ fs.filter fun y => y.dir == d := by rw [heq]; exact hx
          have h₁ := (List.mem_filter.1 hx).2
          have h₂ := (List.mem_filter.1 hx').2
          simp only [beq_iff_eq] at h₁ h₂
          exact hd (h₁.symm.trans h₂)
        rw [hnil] at hperm heq
        rw [heq, (o'.readDir_perm []).eq_nil, hperm.eq_nil]
    · rfl

/-! ## What a rejected append leaves behind -/

section View

variable [F64 F]

/-- Two stores that no caller can tell apart.  `answers` compares all answers a
range query may give, over every listing order of the directory; `range`
compares it under one order, where a new file does not move the others. -/
structure SameView (cfg : Config) (s s' : Store F) : Prop where
  answers : Set.range (fun o => Store.range cfg o s') =
    Set.range (fun o => Store.range cfg o s)
  range : ∀ o : OsOrder F, o.Steady → Store.range cfg o s' = Store.range cfg o s
  lastN : s'.lastN = s.lastN
  candleCount : s'.candleCount = s.candleCount
  symbolCount : s'.symbolCount = s.symbolCount
  version : s'.version = s.version
  evictions : s'.evictions = s.evictions
  outOfOrder : s'.outOfOrder = s.outOfOrder
  victim : evictKey s'.map = evictKey s.map

/-- The append pushes into the entry it finds and returns, whatever a spill
would do. -/
def FastPath (s : Store F) (symbol : Symbol) (c : Candle F) (t : Store F) : Prop :=
  ∃ e, s.map.lookup symbol = some e ∧
    Store.pushAndPublish { s with tick := s.tick + 1 } symbol
      { e with lastAccess := s.tick } c =
      some t ∧
    ∀ cfg io, s.tryAppend cfg symbol c io = some (t, .ok ())

/-- At most one file without a readable row was added. -/
def AddsUnreadable (fs fs' : List (ColdFile F)) : Prop :=
  fs' = fs ∨ ∃ f, f.body = .truncated ∧ fs' = fs ++ [f]

variable {cfg : Config} {s s' : Store F}

/-- The stores hold the same rings. -/
def SameRings (s s' : Store F) : Prop :=
  ∀ k, (s'.map.lookup k).map Entry.buf = (s.map.lookup k).map Entry.buf

omit [F64 F] in
theorem SameRings.cases (h : SameRings s s') (k : Symbol) :
    (s.map.lookup k = none ∧ s'.map.lookup k = none) ∨
      ∃ e e', s.map.lookup k = some e ∧ s'.map.lookup k = some e' ∧ e'.buf = e.buf := by
  have hk := h k
  cases he : s.map.lookup k with
  | none =>
      rw [he] at hk
      exact Or.inl ⟨rfl, Option.map_eq_none_iff.1 hk⟩
  | some e =>
      rw [he] at hk
      obtain ⟨e', he', hbuf⟩ := Option.map_eq_some_iff.1 hk
      exact Or.inr ⟨e, e', rfl, he', hbuf⟩

theorem SameRings.range {o o' : OsOrder F} (h : SameRings s s')
    (hcold : ∀ symbol fromTs toTs, queryCold cfg.uni o' s'.files symbol fromTs toTs =
      queryCold cfg.uni o s.files symbol fromTs toTs) :
    Store.range cfg o' s' = Store.range cfg o s := by
  funext symbol fromTs toTs
  rcases h.cases symbol with ⟨he, he'⟩ | ⟨e, e', he, he', hbuf⟩
  · simp only [Store.range, he, he', hcold]
  · simp only [Store.range, he, he', hbuf, hcold]

omit [F64 F] in
theorem SameRings.lastN (h : SameRings s s') : s'.lastN = s.lastN := by
  funext symbol n
  rcases h.cases symbol with ⟨he, he'⟩ | ⟨e, e', he, he', hbuf⟩
  · simp only [Store.lastN, he, he']
  · simp only [Store.lastN, he, he', hbuf]

omit [F64 F] in
theorem SameRings.candleCount (h : SameRings s s') : s'.candleCount = s.candleCount := by
  funext symbol
  rcases h.cases symbol with ⟨he, he'⟩ | ⟨e, e', he, he', hbuf⟩
  · simp only [Store.candleCount, he, he']
  · simp only [Store.candleCount, he, he', hbuf]

omit [F64 F] in
theorem SameRings.symbolCount (h : SameRings s s') : s'.symbolCount = s.symbolCount := by
  unfold Store.symbolCount
  apply List.Perm.length_eq
  apply (List.perm_ext_iff_of_nodup s'.map.keys_nodup s.map.keys_nodup).2
  intro k
  rw [← AList.mem_keys, ← AList.mem_keys, ← AList.lookup_isSome, ← AList.lookup_isSome]
  rcases h.cases k with ⟨he, he'⟩ | ⟨e, e', he, he', _⟩
  · rw [he, he']
  · rw [he, he']
    rfl

/-- Equal rings, counters and victims make equal views. -/
theorem SameRings.sameView (h : SameRings s s')
    (hfiles : AddsUnreadable s.files s'.files) (hversion : s'.version = s.version)
    (hevictions : s'.evictions = s.evictions) (hord : s'.outOfOrder = s.outOfOrder)
    (hvictim : evictKey s'.map = evictKey s.map) : SameView cfg s s' where
  answers := by
    rcases hfiles with hsame | ⟨f, hbody, hadd⟩
    · congr 1
      funext o
      exact h.range fun _ _ _ => by rw [hsame]
    · apply Set.Subset.antisymm
      · rintro _ ⟨o', rfl⟩
        obtain ⟨o, hsort, hlist⟩ := exists_listsAlike_before o' s.files f
        refine ⟨o, (h.range ?_).symm⟩
        rw [hadd]
        exact queryCold_append_truncated hbody hsort hlist cfg.uni
      · rintro _ ⟨o, rfl⟩
        obtain ⟨o', hsort, hlist⟩ := exists_listsAlike_after o s.files f
        refine ⟨o', h.range ?_⟩
        rw [hadd]
        exact queryCold_append_truncated hbody hsort hlist cfg.uni
  range := by
    intro o ho
    apply h.range
    rcases hfiles with hsame | ⟨f, hbody, hadd⟩
    · rw [hsame]
      exact fun _ _ _ => rfl
    · rw [hadd]
      exact queryCold_append_truncated hbody rfl (ho.listsAlike s.files f) cfg.uni
  lastN := h.lastN
  candleCount := h.candleCount
  symbolCount := h.symbolCount
  version := hversion
  evictions := hevictions
  outOfOrder := hord
  victim := hvictim

/-- The append to a live entry of the map. -/
theorem exists_fastPath {symbol : Symbol} {c : Candle F} {e : Entry F}
    (hget : s.map.lookup symbol = some e) (hlive : e.removed = false)
    (hvalid : c.isValid = true) :
    ∃ t, FastPath s symbol c t ∧
      (∀ k, t.map.lookup k = if k = symbol
        then some { e with buf := (e.buf.push c).2, lastAccess := s.tick }
        else s.map.lookup k) ∧
      t.tick = s.tick + 1 ∧ t.files = s.files ∧ t.version = s.version + 1 ∧
      t.evictions = s.evictions ∧ t.outOfOrder = (match (e.buf.push c).1 with
        | .outOfOrder _ _ => s.outOfOrder + 1
        | .ok => s.outOfOrder) := by
  have hpush : ∃ t, Store.pushAndPublish { s with tick := s.tick + 1 } symbol
      { e with lastAccess := s.tick } c = some t := by
    simp only [Store.pushAndPublish, hlive, Bool.false_eq_true, if_false]
    exact ⟨_, rfl⟩
  obtain ⟨t, ht⟩ := hpush
  have hcall : ∀ cfg io, s.tryAppend cfg symbol c io = some (t, .ok ()) := by
    intro cfg io
    simp only [Store.tryAppend, hvalid, Bool.not_true, Bool.false_eq_true,
      if_false, hget, ht]
  refine ⟨t, ⟨e, hget, ht, hcall⟩, ?_⟩
  simp only [Store.pushAndPublish, hlive, Bool.false_eq_true, if_false,
    Option.some.injEq] at ht
  subst ht
  exact ⟨fun k => by rw [lookup_insert_if, hlive], rfl, rfl, rfl, rfl, rfl⟩

/-- Two appends of one candle to stores with equal entries, in both of which
every stamp is a past tick, lead to stores with the same view. -/
theorem SameView.fastPath {k : Symbol} {x : Candle F} {e : Entry F}
    (hview : SameView cfg s s') (hmap : ∀ k, s'.map.lookup k = s.map.lookup k)
    (hfiles : AddsUnreadable s.files s'.files) (inv : StampInv s) (inv' : StampInv s')
    (hget : s.map.lookup k = some e) (hlive : e.removed = false)
    (hvalid : x.isValid = true) :
    ∃ t t', FastPath s k x t ∧ FastPath s' k x t' ∧ SameView cfg t t' := by
  have hget' : s'.map.lookup k = some e := (hmap k).trans hget
  obtain ⟨t, hfast, hlook, htick, htfiles, htver, htev, htord⟩ :=
    exists_fastPath hget hlive hvalid
  obtain ⟨t', hfast', hlook', htick', htfiles', htver', htev', htord'⟩ :=
    exists_fastPath hget' hlive hvalid
  refine ⟨t, t', hfast, hfast', ?_⟩
  have hrings : SameRings t t' := by
    intro k'
    rw [hlook, hlook', hmap]
    split <;> rfl
  refine hrings.sameView ?_ ?_ ?_ ?_ ?_
  · rw [htfiles, htfiles']
    exact hfiles
  · rw [htver, htver', hview.version]
  · rw [htev, htev', hview.evictions]
  · rw [htord, htord', hview.outOfOrder]
  · have stamps : StampInv t := inv.touch htick rfl hlook fun _ _ h => h
    have stamps' : StampInv t' := inv'.touch htick' rfl hlook' fun _ _ h => h
    apply evictKey_congr stamps.distinct stamps'.distinct
    intro key
    rw [oldest_touch hlook inv.below, oldest_touch hlook' inv'.below]
    simp only [hmap]

end View

section Main

variable [F64 F] {cfg : Config} {s s' : Store F} {h : Ledger F} {symbol : Symbol}
  {c : Candle F} {io : SpillIo} {err : AppendError}

/-- An append that returns an error leaves every entry as it was. -/
theorem rejected_effect (hist : HistoryInv cfg s h)
    (hcall : s.tryAppend cfg symbol c io = some (s', .error err)) :
    (∀ k, s'.map.lookup k = s.map.lookup k) ∧ AddsUnreadable s.files s'.files := by
  have heffect := tryAppend_effect cfg s s' symbol c io _ hist.live hist.toVec_ne_nil
    hcall
  cases heffect with
  | invalid _ hmap hfiles => exact ⟨fun k => by rw [hmap], Or.inl hfiles⟩
  | refused key e spillErr _ _ hkey hmap hspill =>
      refine ⟨hmap, ?_⟩
      have hcases := spill_cases _ _ _ _ _ _ _ (hist.toVec_ne_nil key e hkey) hspill
      rcases hcases with ⟨hr, _⟩ | ⟨_, _, hsame | ⟨name, _, hadd⟩⟩
      · cases hr
      · exact Or.inl hsame
      · exact Or.inr ⟨_, rfl, hadd⟩

/-- A rejected append changes nothing that can be observed: the queries, the
counters and the next victim are as before the call, and an append of a valid
candle to any resident symbol takes the fast path, as it would have without
the call, to a store that looks the same. -/
theorem rejected_append_unobservable (hrun : Run cfg s h)
    (hcall : s.tryAppend cfg symbol c io = some (s', .error err)) :
    AddsUnreadable s.files s'.files ∧ SameView cfg s s' ∧
      ∀ k x, s.isResident k = true → x.isValid = true →
        ∃ t t', FastPath s k x t ∧ FastPath s' k x t' ∧ SameView cfg t t' := by
  have hist := hrun.historyInv
  have inv := hrun.stampInv
  have inv' := inv.append hist hcall
  obtain ⟨hmap, hfiles⟩ := rejected_effect hist hcall
  obtain ⟨hver, hev, hord⟩ := (tryAppend_counters hcall).2.2.rejected err rfl
  have hrings : SameRings s s' := fun k => by rw [hmap k]
  have hview : SameView cfg s s' := by
    refine hrings.sameView hfiles hver hev hord ?_
    apply evictKey_congr inv.distinct inv'.distinct
    intro key
    simp only [Oldest, hmap]
  refine ⟨hfiles, hview, ?_⟩
  intro k x hres hvalid
  obtain ⟨e, hget⟩ := Option.isSome_iff_exists.1 hres
  exact hview.fastPath hmap hfiles inv inv' hget (hist.live k e hget) hvalid

end Main

/-- A store of one symbol whose eviction fails after the file was created. -/
theorem rejected_append_unobservable_full_store :
    let cfg := tinyConfig fun _ => false
    ∃ (s s' : Store ℚ) (h : Ledger ℚ) (err : AppendError), Run cfg s h ∧
      s.tryAppend cfg ['B'] (flatCandle 1 2) (.failAfter .parquet) =
        some (s', .error err) ∧
      s.isResident ['A'] = true ∧ SameView cfg s s' := by
  intro cfg
  obtain ⟨s, h, hrun, _, hp⟩ :=
    exists_run_of_replay (F := ℚ) cfg [⟨['A'], flatCandle 0 1, .ok⟩]
    (fun r => r.1.isResident ['A'] &&
      (r.1.tryAppend cfg ['B'] (flatCandle 1 2) (.failAfter .parquet)).any fun r =>
        !r.2.toBool) (by decide +kernel)
  rw [Bool.and_eq_true] at hp
  obtain ⟨⟨s', r⟩, hcall, hr⟩ := (Option.any_eq_true _ _).1 hp.2
  cases r with
  | ok u => cases hr
  | error err =>
      exact ⟨s, s', h, err, hrun, hcall, hp.1,
        (rejected_append_unobservable hrun hcall).2.1⟩

end Candlestore
