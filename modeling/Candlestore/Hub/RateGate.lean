import Candlestore.Lib.Sparse
import Candlestore.Hub.Executor

/-!
# The rate gate over a run of calls

`RateLimiter` counts the accepted calls of a bucket and starts a new bucket at the
first call that comes a second or more after the start of the old one.  So the calls
fall into buckets by their instants alone, and each bucket lets its first `max` calls
through.  Nothing is carried over, so the last calls of one bucket and the first of the
next may lie closer than a second.  This file says exactly for which instants every
window of one second stays within the bound.
-/

namespace Candlestore.Hub

open Lib

/-- A limiter and the instants of the calls it has accepted. -/
structure GateRun where
  limiter : RateLimiter
  accepted : List Nat
  deriving DecidableEq, Repr

namespace GateRun

open RateLimiter

/-- One call of `try_accept` at `now`. -/
def call (s : GateRun) (now : Nat) : GateRun :=
  let (ok, limiter) := s.limiter.tryAccept now
  { limiter, accepted := if ok then s.accepted ++ [now] else s.accepted }

/-- A limiter made at `start` and called at `instants`. -/
def calls (max start : Nat) (instants : List Nat) : GateRun :=
  instants.foldl call ⟨.new max start, []⟩

/-- The accepted calls in the second that starts at `lo`. -/
def within (s : GateRun) (lo : Nat) : Nat :=
  s.accepted.countP fun t => lo ≤ t ∧ t < lo + nanosPerSec

/-! ## Buckets of instants -/

/-- The instants cut into buckets: one begins at `start` and has `current` in it so far,
and each of the others begins with the first instant that is a second or more after the
beginning of the one before it. -/
def buckets (start : Nat) (current : List Nat) : List Nat → List (List Nat)
  | [] => [current]
  | t :: rest =>
      if t < start + nanosPerSec then buckets start (current ++ [t]) rest
      else current :: buckets t [t] rest

/-- The first `max` instants of each bucket. -/
def letThrough (max start : Nat) (instants : List Nat) : List (List Nat) :=
  (buckets start [] instants).map (List.take max)

section Buckets

variable {start : Nat} {current rest : List Nat}

theorem flatten_buckets (start : Nat) (current rest : List Nat) :
    (buckets start current rest).flatten = current ++ rest := by
  induction rest generalizing start current with
  | nil => simp [buckets]
  | cons t rest ih =>
      rw [buckets]
      split
      · rw [ih, List.append_assoc, List.singleton_append]
      · rw [List.flatten_cons, ih, List.singleton_append]

/-- The buckets after the first are a second or more after its beginning. -/
theorem le_of_mem_tail_buckets (hrest : (start :: rest).Pairwise (· ≤ ·)) :
    ∀ u ∈ (buckets start current rest).tail.flatten, start + nanosPerSec ≤ u := by
  induction rest generalizing current with
  | nil =>
      intro u hu
      simp [buckets] at hu
  | cons t rest ih =>
      obtain ⟨hstart, hsorted⟩ := List.pairwise_cons.1 hrest
      rw [buckets]
      split
      · refine ih (List.pairwise_cons.2 ⟨?_, (List.pairwise_cons.1 hsorted).2⟩)
        exact fun u hu => hstart u (List.mem_cons_of_mem _ hu)
      · next hold =>
        intro u hu
        rw [List.tail_cons, flatten_buckets, List.singleton_append] at hu
        have hle : t ≤ u := by
          rcases List.mem_cons.1 hu with rfl | hu
          · exact Nat.le_refl _
          · exact (List.pairwise_cons.1 hsorted).1 u hu
        omega

/-- A bucket and the next but one are a second apart. -/
theorem farGroups_buckets (hcurrent : ∀ x ∈ current, x < start + nanosPerSec)
    (hrest : (start :: rest).Pairwise (· ≤ ·)) :
    FarGroups nanosPerSec (buckets start current rest) := by
  induction rest generalizing start current with
  | nil =>
      refine ⟨?_, trivial⟩
      intro _ _ u hu
      cases hu
  | cons t rest ih =>
      obtain ⟨hstart, hsorted⟩ := List.pairwise_cons.1 hrest
      rw [buckets]
      split
      · next hyoung =>
        refine ih ?_ (List.pairwise_cons.2 ⟨?_, (List.pairwise_cons.1 hsorted).2⟩)
        · intro x hx
          rcases List.mem_append.1 hx with hx | hx
          · exact hcurrent x hx
          · exact List.mem_singleton.1 hx ▸ hyoung
        · exact fun u hu => hstart u (List.mem_cons_of_mem _ hu)
      · next hold =>
        refine ⟨?_, ih ?_ hsorted⟩
        · intro x hx u hu
          have hx := hcurrent x hx
          have hu := le_of_mem_tail_buckets hsorted u hu
          omega
        · intro x hx
          rw [List.mem_singleton.1 hx]
          exact Nat.lt_add_of_pos_right (by decide)

theorem length_le_of_mem_letThrough {max : Nat} {instants : List Nat} :
    ∀ a ∈ letThrough max start instants, a.length ≤ max := by
  intro a ha
  obtain ⟨b, _, rfl⟩ := List.mem_map.1 ha
  exact List.length_take_le max b

theorem sorted_letThrough {max : Nat} {instants : List Nat}
    (h : instants.Pairwise (· ≤ ·)) :
    (letThrough max start instants).flatten.Pairwise (· ≤ ·) := by
  have hsub : (letThrough max start instants).flatten.Sublist instants := by
    have hall := flatten_buckets start [] instants
    rw [List.nil_append] at hall
    conv_rhs => rw [← hall]
    rw [letThrough]
    induction buckets start [] instants with
    | nil => exact List.Sublist.refl _
    | cons b bs ih => exact (List.take_sublist max b).append ih
  exact h.sublist hsub

end Buckets

/-! ## The limiter over its buckets -/

/-- A call in the bucket that began at `start` and has seen `current`. -/
theorem call_young {max start t : Nat} {before current : List Nat}
    (h : t < start + nanosPerSec) :
    call ⟨⟨start, min current.length max, max⟩, before ++ current.take max⟩ t =
      ⟨⟨start, min (current ++ [t]).length max, max⟩,
        before ++ (current ++ [t]).take max⟩ := by
  have hsec : 0 < nanosPerSec := by decide
  have hyoung : ¬nanosPerSec ≤ t - start := by omega
  rw [call, tryAccept]
  simp only [if_neg hyoung, List.length_append, List.length_singleton]
  by_cases hfull : max ≤ current.length
  · rw [if_pos (by omega), Nat.min_eq_right hfull, Nat.min_eq_right (by omega),
      List.take_append_of_le_length hfull]
    rfl
  · have hroom : current.length + 1 ≤ max := by omega
    rw [if_neg (by omega), Nat.min_eq_left (by omega), Nat.min_eq_left hroom,
      List.take_of_length_le (by omega), List.take_of_length_le (by simpa using hroom),
      ← List.append_assoc]
    rfl

/-- A call that begins a bucket. -/
theorem call_old {max start count t : Nat} {accepted : List Nat}
    (h : ¬t < start + nanosPerSec) :
    call ⟨⟨start, count, max⟩, accepted⟩ t =
      ⟨⟨t, min [t].length max, max⟩, accepted ++ [t].take max⟩ := by
  have hold : nanosPerSec ≤ t - start := by omega
  rw [call, tryAccept]
  simp only [if_pos hold, List.length_singleton]
  cases max with
  | zero =>
      rw [if_pos (Nat.le_refl 0), Nat.min_zero, List.take_zero, List.append_nil]
      rfl
  | succ max =>
      rw [if_neg (by omega), Nat.min_eq_left (by omega), List.take_succ_cons,
        List.take_nil]
      rfl

/-- The limiter lets through the first `max` calls of each bucket. -/
theorem accepted_foldl_call (max start : Nat) (before current rest : List Nat) :
    (rest.foldl call
      ⟨⟨start, min current.length max, max⟩, before ++ current.take max⟩).accepted =
      before ++ ((buckets start current rest).map (List.take max)).flatten := by
  induction rest generalizing start before current with
  | nil => simp [buckets]
  | cons t rest ih =>
      rw [List.foldl_cons, buckets]
      split
      · next hyoung => rw [call_young hyoung, ih]
      · next hold =>
        rw [call_old hold, ih, List.map_cons, List.flatten_cons, List.append_assoc]

theorem accepted_calls (max start : Nat) (instants : List Nat) :
    (calls max start instants).accepted = (letThrough max start instants).flatten := by
  have hrun := accepted_foldl_call max start [] [] instants
  rw [List.nil_append, List.take_nil, List.length_nil, Nat.zero_min] at hrun
  exact hrun

/-- Over every non-decreasing clock, the accepted calls are the first `max` of each
bucket, and each window of one second holds at most `max` of them exactly if neighbouring
buckets keep apart: with `n` calls let through in one bucket, its `i`-th and the
`i + (max - n)`-th of the next, if there are both, are a second apart. -/
theorem windows_bounded_iff (max start : Nat) (instants : List Nat)
    (hclock : (start :: instants).Pairwise (· ≤ ·)) :
    (calls max start instants).accepted = (letThrough max start instants).flatten ∧
      ((∀ lo, (calls max start instants).within lo ≤ max) ↔
        (letThrough max start instants).IsChain (Apart nanosPerSec max)) := by
  have haccepted := accepted_calls max start instants
  have hfar : FarGroups nanosPerSec (letThrough max start instants) :=
    (farGroups_buckets (fun _ hx => by cases hx) hclock).map_take max
  have hsparse : Sparse nanosPerSec max (letThrough max start instants).flatten ↔
      (letThrough max start instants).IsChain (Apart nanosPerSec max) := by
    rw [sparse_iff_spread (by decide)
      (sorted_letThrough (List.pairwise_cons.1 hclock).2),
      spread_flatten_iff length_le_of_mem_letThrough hfar]
  rw [← haccepted] at hsparse
  exact ⟨haccepted, hsparse⟩

/-- The second call starts a new bucket a tenth of a second after the first, and the
last but one waits until the first is a second old.  The last finds the bucket full. -/
theorem windows_bounded_iff_rollover :
    let instants := [900000000, 1000000000, 1100000000, 1950000000, 1960000000]
    letThrough 3 0 instants = [[900000000], [1000000000, 1100000000, 1950000000]] ∧
      ∀ lo, (calls 3 0 instants).within lo ≤ 3 :=
  ⟨by decide, (windows_bounded_iff 3 0 _ (by decide)).2.2 (by decide)⟩

/-- With a bound of one call a second, two calls a tenth of a second apart are accepted:
the second of them starts a new bucket. -/
theorem burst_over_rollover :
    (calls 1 0 [900000000, 1000000000]).accepted = [900000000, 1000000000] ∧
      (calls 1 0 [900000000, 1000000000]).within 900000000 = 2 := by
  decide

end GateRun

end Candlestore.Hub
