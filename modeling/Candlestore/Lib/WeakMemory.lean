import Mathlib.Data.Fintype.Defs
import Mathlib.Logic.Function.Basic
import Mathlib.Order.MinMax
import Mathlib.Tactic.Common

/-!
# Release/acquire memory

A memory in which a load need not see the newest store.  Every store to an atomic
location leaves a *message* at a stamp of its own; the stamps of a location are its
modification order.  A thread has a *view*: per location the stamp it must not read
behind, and per thread how many of that thread's plain accesses happened before.  A
load picks any message at or above the view; an acquiring load also takes over what
the message carries.  A store picks any free stamp above the view; a releasing store
makes the message carry the whole view of the thread.

Plain locations hold one value.  An access to one is a *race* if it conflicts with an
access that did not happen before it, and `raced` records that there was one.

This is the fragment of C11 with relaxed, acquire and release accesses and no
read-modify-writes or fences, in its operational reading: values do not come out of
thin air.
-/

namespace Candlestore.Lib

/-- What a load lets its thread learn: the message alone, or what its writer knew. -/
inductive LoadOrder where
  | relaxed
  | acquire
  deriving DecidableEq, Repr

/-- What a store publishes: the message alone, or what its writer knows. -/
inductive StoreOrder where
  | relaxed
  | release
  deriving DecidableEq, Repr

/-- What a thread knows, or a message carries. -/
@[ext]
structure View (T L : Type) where
  seen : L → Nat
  knows : T → Nat

/-- A store to an atomic location, with the view it publishes. -/
structure Message (T L V : Type) where
  value : V
  view : View T L

/-- A plain location: its value, the last write to it and the last read by each thread,
as numbers of the thread's plain accesses, from one on. -/
structure Plain (T W : Type) where
  value : W
  writer : T
  written : Nat
  read : T → Nat

/-- The stores to each atomic location by stamp, the plain memory, and what each thread
knows.  `raced` is set at the first data race. -/
structure Memory (T L N V : Type) (W : N → Type) where
  messages : L → Nat → Option (Message T L V)
  plain : (n : N) → Plain T (W n)
  views : T → View T L
  raced : Bool

namespace View

variable {T L : Type}

/-- To have seen nothing but the initial messages. -/
def bot : View T L := ⟨fun _ => 0, fun _ => 0⟩

/-- To know what either view knows. -/
def join (v w : View T L) : View T L :=
  ⟨fun l => max (v.seen l) (w.seen l), fun t => max (v.knows t) (w.knows t)⟩

/-- The view after reading or leaving the message at `stamp`. -/
def raise [DecidableEq L] (v : View T L) (l : L) (stamp : Nat) : View T L :=
  { v with seen := Function.update v.seen l stamp }

/-- The view after one more plain access of `t`. -/
def tick [DecidableEq T] (v : View T L) (t : T) : View T L :=
  { v with knows := Function.update v.knows t (v.knows t + 1) }

@[simp] theorem tick_seen [DecidableEq T] (v : View T L) (t : T) :
    (v.tick t).seen = v.seen := rfl

theorem knows_le_tick [DecidableEq T] (v : View T L) (t u : T) :
    v.knows u ≤ (v.tick t).knows u := by
  unfold tick
  by_cases h : u = t
  · subst h
    simp
  · simp [h]

@[simp] theorem tick_knows_self [DecidableEq T] (v : View T L) (t : T) :
    (v.tick t).knows t = v.knows t + 1 := by
  simp [tick]

theorem tick_knows_of_ne [DecidableEq T] (v : View T L) {t u : T} (h : u ≠ t) :
    (v.tick t).knows u = v.knows u := by
  simp [tick, h]

theorem join_bot (v : View T L) : v.join bot = v := by
  ext <;> simp [join, bot]

/-- What a view has seen of a location after a join, one of the two had seen. -/
theorem join_seen (v w : View T L) (l : L) :
    (v.join w).seen l = v.seen l ∨ (v.join w).seen l = w.seen l :=
  max_choice (v.seen l) (w.seen l)

@[simp] theorem raise_seen [DecidableEq L] (v : View T L) (l : L) (stamp : Nat) :
    (v.raise l stamp).seen l = stamp :=
  Function.update_self ..

theorem raise_seen_of_ne [DecidableEq L] (v : View T L) {l l' : L} (h : l' ≠ l)
    (stamp : Nat) : (v.raise l stamp).seen l' = v.seen l' :=
  Function.update_of_ne h ..

theorem raise_self [DecidableEq L] (v : View T L) (l : L) :
    v.raise l (v.seen l) = v := by
  ext <;> simp [raise]

/-- Reading a message that carries its own stamp is taking over what it carries. -/
theorem raise_join [DecidableEq L] {v w : View T L} {l : L} (h : v.seen l ≤ w.seen l) :
    (v.raise l (w.seen l)).join w = v.join w := by
  ext l'
  · by_cases hl : l' = l
    · subst hl
      simp [raise, join, h]
    · simp [raise, join, hl]
  · rfl

end View

/-- What a load takes over from the message it reads. -/
def LoadOrder.gain {T L : Type} : LoadOrder → View T L → View T L
  | .relaxed, _ => .bot
  | .acquire, view => view

/-- What a store makes its message carry. -/
def StoreOrder.gives {T L : Type} [DecidableEq L] :
    StoreOrder → View T L → L → Nat → View T L
  | .relaxed, _, l, stamp => View.bot.raise l stamp
  | .release, view, l, stamp => view.raise l stamp

namespace Memory

variable {T L N V : Type} {W : N → Type}

section Operations

variable [DecidableEq T]

/-- A thread comes to a new view. -/
def learn (m : Memory T L N V W) (t : T) (view : View T L) : Memory T L N V W :=
  { m with views := Function.update m.views t view }

/-- The load that reads the message at `stamp`. -/
def load [DecidableEq L] (m : Memory T L N V W) (o : LoadOrder) (t : T) (l : L)
    (stamp : Nat) : Option (V × Memory T L N V W) :=
  (m.messages l stamp).bind fun msg =>
    if (m.views t).seen l ≤ stamp then
      some (msg.value, m.learn t (((m.views t).raise l stamp).join (o.gain msg.view)))
    else none

/-- The store that leaves its message at `stamp`. -/
def store [DecidableEq L] (m : Memory T L N V W) (o : StoreOrder) (t : T) (l : L)
    (stamp : Nat) (value : V) : Option (Memory T L N V W) :=
  if (m.views t).seen l < stamp ∧ (m.messages l stamp).isNone then
    some { m.learn t ((m.views t).raise l stamp) with
      messages := Function.update m.messages l
        (Function.update (m.messages l) stamp
          (some ⟨value, o.gives (m.views t) l stamp⟩)) }
  else none

/-- The last write to `n` happened before what `t` does next. -/
def knowsWrite (m : Memory T L N V W) (t : T) (n : N) : Bool :=
  (m.plain n).written ≤ (m.views t).knows (m.plain n).writer

/-- All reads of the location happened before. -/
def knowsReads [Fintype T] (m : Memory T L N V W) (t : T) (n : N) : Bool :=
  decide (∀ u, (m.plain n).read u ≤ (m.views t).knows u)

/-- A read that does not know of the last write races with it. -/
def read [DecidableEq N] (m : Memory T L N V W) (t : T) (n : N) :
    W n × Memory T L N V W :=
  ((m.plain n).value,
    { m.learn t ((m.views t).tick t) with
      plain := Function.update m.plain n
        { m.plain n with
          read := Function.update (m.plain n).read t ((m.views t).knows t + 1) }
      raced := m.raced || !m.knowsWrite t n })

/-- A write races with the accesses that it does not know of. -/
def write [DecidableEq N] [Fintype T] (m : Memory T L N V W) (t : T) (n : N)
    (value : W n) : Memory T L N V W :=
  { m.learn t ((m.views t).tick t) with
    plain := Function.update m.plain n
      { m.plain n with value, writer := t, written := (m.views t).knows t + 1 }
    raced := m.raced || !(m.knowsWrite t n && m.knowsReads t n) }

end Operations

/-- A memory nobody has touched: one message per location, and plain locations with the
given contents. -/
def fresh (value : V) (owner : T) (contents : (n : N) → W n) : Memory T L N V W where
  messages _ stamp := if stamp = 0 then some ⟨value, .bot⟩ else none
  plain n := ⟨contents n, owner, 0, fun _ => 0⟩
  views _ := .bot
  raced := false

/-! ## What every reachable memory keeps to -/

/-- A property of the views of all threads and of those the messages carry. -/
structure Views (m : Memory T L N V W) (φ : View T L → Prop) : Prop where
  thread : ∀ t, φ (m.views t)
  message : ∀ {l stamp msg}, m.messages l stamp = some msg → φ msg.view

theorem Views.mono {m : Memory T L N V W} {φ ψ : View T L → Prop} (h : m.Views φ)
    (himp : ∀ v, φ v → ψ v) : m.Views ψ where
  thread t := himp _ (h.thread t)
  message hmsg := himp _ (h.message hmsg)

/-- Every stamp that a view has seen is that of a message. -/
def Reached (m : Memory T L N V W) (v : View T L) : Prop :=
  ∀ l, (m.messages l (v.seen l)).isSome

/-- No view tells of accesses that a thread has not made. -/
def Truthful (m : Memory T L N V W) (v : View T L) : Prop :=
  ∀ t, v.knows t ≤ (m.views t).knows t

/-- No view is ahead of what has happened. -/
structure WellFormed (m : Memory T L N V W) : Prop where
  reached : m.Views m.Reached
  truthful : m.Views m.Truthful
  carried : ∀ {l stamp msg}, m.messages l stamp = some msg → msg.view.seen l = stamp
  wrote : ∀ n, (m.plain n).written ≤ (m.views (m.plain n).writer).knows
    (m.plain n).writer
  hasRead : ∀ n t, (m.plain n).read t ≤ (m.views t).knows t

/-- `t` has seen every message of `l`. -/
def Newest (m : Memory T L N V W) (t : T) (l : L) : Prop :=
  ∀ stamp msg, m.messages l stamp = some msg → stamp ≤ (m.views t).seen l

theorem Newest.le {m : Memory T L N V W} {t : T} {l : L} (h : m.Newest t l) {stamp : Nat}
    {msg : Message T L V} (hmsg : m.messages l stamp = some msg) :
    stamp ≤ (m.views t).seen l :=
  h stamp msg hmsg

theorem fresh_message {value : V} {owner : T} {contents : (n : N) → W n} {l : L}
    {stamp : Nat} {msg : Message T L V}
    (h : (fresh value owner contents : Memory T L N V W).messages l stamp = some msg) :
    stamp = 0 ∧ msg = ⟨value, .bot⟩ := by
  simp only [fresh] at h
  split at h
  · next hzero =>
      cases h
      exact ⟨hzero, rfl⟩
  · cases h

theorem WellFormed.fresh (value : V) (owner : T) (contents : (n : N) → W n) :
    (fresh value owner contents : Memory T L N V W).WellFormed where
  reached :=
    { thread := fun _ _ => rfl
      message := fun h l => by
        rw [(fresh_message h).2]
        rfl }
  truthful :=
    { thread := fun _ _ => le_rfl
      message := fun h _ => by rw [(fresh_message h).2]; exact le_rfl }
  carried h := by
    obtain ⟨rfl, rfl⟩ := fresh_message h
    rfl
  wrote _ := le_rfl
  hasRead _ _ := le_rfl

section Learning

variable [DecidableEq T] {m : Memory T L N V W} {t : T} {l : L} {stamp : Nat}

@[simp] theorem learn_messages (view : View T L) :
    (m.learn t view).messages = m.messages := rfl

@[simp] theorem learn_plain (view : View T L) : (m.learn t view).plain = m.plain := rfl

@[simp] theorem learn_views_self (view : View T L) : (m.learn t view).views t = view :=
  Function.update_self ..

theorem learn_views_of_ne {u : T} (h : u ≠ t) (view : View T L) :
    (m.learn t view).views u = m.views u :=
  Function.update_of_ne h ..

/-- Learning something that every view property at hand allows keeps it. -/
theorem Views.learn {φ : View T L → Prop} (h : m.Views φ) {view : View T L}
    (hview : φ view) : (m.learn t view).Views φ where
  thread u := by
    by_cases hu : u = t
    · subst hu
      rwa [learn_views_self]
    · rw [learn_views_of_ne hu]
      exact h.thread u
  message hmsg := h.message hmsg

omit [DecidableEq T] in
theorem Reached.join {v w : View T L} (hv : m.Reached v) (hw : m.Reached w) :
    m.Reached (v.join w) := by
  intro l
  rcases View.join_seen v w l with h | h
  · rw [h]
    exact hv l
  · rw [h]
    exact hw l

/-- A thread's own accesses stay known to it when it learns more. -/
theorem WellFormed.learn (hm : m.WellFormed) {view : View T L} (hview : m.Reached view)
    (hknows : ∀ u, (m.views t).knows u ≤ view.knows u)
    (htruth : ∀ u, u ≠ t → view.knows u ≤ (m.views u).knows u) :
    (m.learn t view).WellFormed where
  reached := hm.reached.learn hview
  truthful := by
    have hkeep : ∀ v, m.Truthful v → (m.learn t view).Truthful v := by
      intro v hv u
      by_cases hu : u = t
      · subst hu
        rw [learn_views_self]
        exact (hv u).trans (hknows u)
      · rw [learn_views_of_ne hu]
        exact hv u
    have hnew : (m.learn t view).Truthful view := by
      intro u
      by_cases hu : u = t
      · subst hu
        rw [learn_views_self]
      · rw [learn_views_of_ne hu]
        exact htruth u hu
    exact (hm.truthful.mono hkeep).learn hnew
  carried h := hm.carried h
  wrote n := by
    show (m.plain n).written ≤
      ((m.learn t view).views (m.plain n).writer).knows (m.plain n).writer
    have hw := hm.wrote n
    by_cases hu : (m.plain n).writer = t
    · rw [hu] at hw ⊢
      rw [learn_views_self]
      exact hw.trans (hknows t)
    · rwa [learn_views_of_ne hu]
  hasRead n u := by
    by_cases hu : u = t
    · subst hu
      rw [learn_views_self]
      exact (hm.hasRead n u).trans (hknows u)
    · rw [learn_views_of_ne hu]
      exact hm.hasRead n u

omit [DecidableEq T] in
/-- What a thread hears of does not change what it knows of itself. -/
theorem WellFormed.join_knows_self (hm : m.WellFormed) {msg : Message T L V}
    (hmsg : m.messages l stamp = some msg) :
    ((m.views t).join msg.view).knows t = (m.views t).knows t :=
  max_eq_left (hm.truthful.message hmsg t)

theorem WellFormed.join (hm : m.WellFormed) {msg : Message T L V}
    (hmsg : m.messages l stamp = some msg) :
    (m.learn t ((m.views t).join msg.view)).WellFormed := by
  have hreached := (hm.reached.thread t).join (hm.reached.message hmsg)
  refine hm.learn hreached (fun _ => le_max_left ..) fun u _ => ?_
  exact max_le (hm.truthful.thread t u) (hm.truthful.message hmsg u)

theorem WellFormed.tick (hm : m.WellFormed) (t : T) :
    (m.learn t ((m.views t).tick t)).WellFormed := by
  have hreached : m.Reached ((m.views t).tick t) := hm.reached.thread t
  refine hm.learn hreached (View.knows_le_tick (m.views t) t) fun u hu => ?_
  rw [View.tick_knows_of_ne _ hu]
  exact hm.truthful.thread t u

theorem Newest.learn {u : T} (h : m.Newest u l) {view : View T L}
    (hview : u = t → (m.views t).seen l ≤ view.seen l) :
    (m.learn t view).Newest u l := by
  intro stamp msg hmsg
  by_cases hu : u = t
  · subst hu
    rw [learn_views_self]
    exact (h.le hmsg).trans (hview rfl)
  · rw [learn_views_of_ne hu]
    exact h.le hmsg

end Learning

section Steps

variable [DecidableEq T] [DecidableEq L] {m m' : Memory T L N V W} {t : T} {l : L}
  {stamp : Nat}

/-! ### Loads -/

theorem load_eq_some {o : LoadOrder} {value : V} :
    m.load o t l stamp = some (value, m') ↔
      ∃ msg, m.messages l stamp = some msg ∧ (m.views t).seen l ≤ stamp ∧
      value = msg.value ∧
        m' = m.learn t (((m.views t).raise l stamp).join (o.gain msg.view)) := by
  unfold load
  rw [Option.bind_eq_some_iff]
  refine exists_congr fun msg => and_congr_right fun _ => ?_
  by_cases hle : (m.views t).seen l ≤ stamp
  · rw [if_pos hle, Option.some.injEq, Prod.mk.injEq]
    exact ⟨fun h => ⟨hle, h.1.symm, h.2.symm⟩, fun h => ⟨h.2.1.symm, h.2.2.symm⟩⟩
  · rw [if_neg hle]
    exact ⟨fun h => (by cases h), fun h => absurd h.1 hle⟩

/-- An acquiring load takes over what the message carries. -/
theorem WellFormed.load_acquire (hm : m.WellFormed) {value : V}
    (h : m.load .acquire t l stamp = some (value, m')) :
    ∃ msg, m.messages l stamp = some msg ∧ (m.views t).seen l ≤ stamp ∧
      msg.view.seen l = stamp ∧ value = msg.value ∧
      m' = m.learn t ((m.views t).join msg.view) := by
  obtain ⟨msg, hmsg, hle, hvalue, rfl⟩ := load_eq_some.1 h
  have hcarried := hm.carried hmsg
  refine ⟨msg, hmsg, hle, hcarried, hvalue, ?_⟩
  show m.learn t (((m.views t).raise l stamp).join msg.view) = _
  rw [← hcarried, View.raise_join (hcarried ▸ hle)]

/-- A relaxed load of a location whose newest message the thread has seen reads that
message and learns nothing. -/
theorem load_relaxed_newest (hnew : m.Newest t l) {value : V}
    (h : m.load .relaxed t l stamp = some (value, m')) :
    stamp = (m.views t).seen l ∧ m' = m ∧
      ∃ msg, m.messages l stamp = some msg ∧ value = msg.value := by
  obtain ⟨msg, hmsg, hle, hvalue, rfl⟩ := load_eq_some.1 h
  obtain rfl : stamp = (m.views t).seen l := le_antisymm (hnew.le hmsg) hle
  refine ⟨rfl, ?_, msg, hmsg, hvalue⟩
  show m.learn t (((m.views t).raise l ((m.views t).seen l)).join .bot) = m
  rw [View.raise_self, View.join_bot]
  unfold learn
  rw [Function.update_eq_self]

/-! ### Stores -/

theorem store_eq_some {o : StoreOrder} {value : V} :
    m.store o t l stamp value = some m' ↔
      (m.views t).seen l < stamp ∧ m.messages l stamp = none ∧
        m' = { m.learn t ((m.views t).raise l stamp) with
          messages := Function.update m.messages l
            (Function.update (m.messages l) stamp
              (some ⟨value, o.gives (m.views t) l stamp⟩)) } := by
  unfold store
  split
  · next h =>
      rw [Option.some.injEq]
      exact ⟨fun heq => ⟨h.1, Option.isNone_iff_eq_none.1 h.2, heq.symm⟩,
        fun heq => heq.2.2.symm⟩
  · next h =>
      exact ⟨fun heq => (by cases heq),
        fun heq => absurd ⟨heq.1, Option.isNone_iff_eq_none.2 heq.2.1⟩ h⟩

/-- The memory after a store: one message more, which the storing thread has seen. -/
structure Stored (m m' : Memory T L N V W) (o : StoreOrder) (t : T) (l : L) (stamp : Nat)
    (value : V) : Prop where
  above : (m.views t).seen l < stamp
  free : m.messages l stamp = none
  message : m'.messages l stamp = some ⟨value, o.gives (m.views t) l stamp⟩
  others : ∀ {l' stamp'}, ¬ (l' = l ∧ stamp' = stamp) →
    m'.messages l' stamp' = m.messages l' stamp'
  view : m'.views t = (m.views t).raise l stamp
  views : ∀ {u}, u ≠ t → m'.views u = m.views u
  plain : m'.plain = m.plain
  raced : m'.raced = m.raced

theorem Stored.of_store {o : StoreOrder} {value : V}
    (h : m.store o t l stamp value = some m') : Stored m m' o t l stamp value := by
  obtain ⟨habove, hfree, rfl⟩ := store_eq_some.1 h
  refine ⟨habove, hfree, ?_, ?_, learn_views_self _,
    fun hu => learn_views_of_ne hu _, rfl, rfl⟩
  · show Function.update m.messages l _ l stamp = _
    rw [Function.update_self, Function.update_self]
  · intro l' stamp' hne
    show Function.update m.messages l _ l' stamp' = _
    by_cases hl : l' = l
    · subst hl
      rw [Function.update_self, Function.update_of_ne fun hs => hne ⟨rfl, hs⟩]
    · rw [Function.update_of_ne hl]

namespace Stored

variable {o : StoreOrder} {value : V}

omit [DecidableEq T] in
/-- A message after the store is the new one or was there before. -/
theorem cases (h : Stored m m' o t l stamp value) {l' : L} {stamp' : Nat}
    {msg : Message T L V} (hmsg : m'.messages l' stamp' = some msg) :
    (l' = l ∧ stamp' = stamp ∧ msg = ⟨value, o.gives (m.views t) l stamp⟩) ∨
      m.messages l' stamp' = some msg := by
  by_cases hne : l' = l ∧ stamp' = stamp
  · obtain ⟨rfl, rfl⟩ := hne
    rw [h.message, Option.some.injEq] at hmsg
    exact .inl ⟨rfl, rfl, hmsg.symm⟩
  · rw [h.others hne] at hmsg
    exact .inr hmsg

omit [DecidableEq T] in
theorem messages_of_ne (h : Stored m m' o t l stamp value) {l' : L} (hne : l' ≠ l) :
    m'.messages l' = m.messages l' :=
  funext fun _ => h.others fun heq => hne heq.1

omit [DecidableEq T] in
theorem isSome_mono (h : Stored m m' o t l stamp value) {l' : L} {stamp' : Nat}
    (hsome : (m.messages l' stamp').isSome) : (m'.messages l' stamp').isSome := by
  by_cases hne : l' = l ∧ stamp' = stamp
  · rw [hne.1, hne.2, h.message]
    rfl
  · rwa [h.others hne]

omit [DecidableEq T] in
/-- No view had seen the stamp that the store has taken. -/
theorem seen_ne (h : Stored m m' o t l stamp value) {v : View T L} (hv : m.Reached v) :
    v.seen l ≠ stamp := by
  intro heq
  have hsome := hv l
  rw [heq, h.free] at hsome
  cases hsome

omit [DecidableEq T] in
theorem reached_raise (h : Stored m m' o t l stamp value) {v : View T L}
    (hv : m.Reached v) : m'.Reached (v.raise l stamp) := by
  intro l'
  by_cases hl : l' = l
  · subst hl
    rw [View.raise_seen, h.message]
    rfl
  · rw [View.raise_seen_of_ne _ hl]
    exact h.isSome_mono (hv l')

omit [DecidableEq T] in
theorem reached_gives (h : Stored m m' o t l stamp value) (hm : m.WellFormed)
    (hbot : m.Reached .bot) : m'.Reached (o.gives (m.views t) l stamp) := by
  cases o with
  | relaxed => exact h.reached_raise hbot
  | release => exact h.reached_raise (hm.reached.thread t)

omit [DecidableEq T] in
theorem gives_seen_self (o : StoreOrder) (v : View T L) (l : L) (stamp : Nat) :
    (o.gives v l stamp).seen l = stamp := by
  cases o with
  | relaxed => exact Function.update_self ..
  | release => exact Function.update_self ..

theorem knows_eq (h : Stored m m' o t l stamp value) (u : T) :
    (m'.views u).knows = (m.views u).knows := by
  by_cases hu : u = t
  · subst hu
    rw [h.view]
    rfl
  · rw [h.views hu]

/-- A property of views after the store, from one before it: what it says of the views
there were, and of the two the store makes. -/
theorem viewsOf {φ ψ : View T L → Prop} (h : Stored m m' o t l stamp value)
    (hm : m.WellFormed) (hφ : m.Views φ) (hkeep : ∀ v, m.Reached v → φ v → ψ v)
    (hthread : ψ ((m.views t).raise l stamp))
    (hmessage : ψ (o.gives (m.views t) l stamp)) : m'.Views ψ where
  thread u := by
    by_cases hu : u = t
    · subst hu
      rw [h.view]
      exact hthread
    · rw [h.views hu]
      exact hkeep _ (hm.reached.thread u) (hφ.thread u)
  message hmsg := by
    rcases h.cases hmsg with ⟨-, -, rfl⟩ | hold
    · exact hmessage
    · exact hkeep _ (hm.reached.message hold) (hφ.message hold)

theorem wellFormed (h : Stored m m' o t l stamp value) (hm : m.WellFormed)
    (hbot : m.Reached .bot) : m'.WellFormed where
  reached :=
    { thread := fun u => by
        by_cases hu : u = t
        · subst hu
          rw [h.view]
          exact h.reached_raise (hm.reached.thread u)
        · rw [h.views hu]
          exact fun l' => h.isSome_mono (hm.reached.thread u l')
      message := fun hmsg => by
        rcases h.cases hmsg with ⟨-, -, rfl⟩ | hold
        · exact h.reached_gives hm hbot
        · exact fun l' => h.isSome_mono (hm.reached.message hold l') }
  truthful := by
    have hkeep : ∀ v, m.Truthful v → m'.Truthful v := by
      intro v hv u
      rw [h.knows_eq]
      exact hv u
    refine h.viewsOf hm hm.truthful (fun v _ hv => hkeep v hv)
      (hkeep _ (hm.truthful.thread t)) ?_
    cases o with
    | relaxed => exact fun _ => Nat.zero_le _
    | release => exact hkeep _ (hm.truthful.thread t)
  carried hmsg := by
    rcases h.cases hmsg with ⟨rfl, rfl, rfl⟩ | hold
    · exact gives_seen_self ..
    · exact hm.carried hold
  wrote n := by
    rw [h.plain, h.knows_eq]
    exact hm.wrote n
  hasRead n u := by
    rw [h.plain, h.knows_eq]
    exact hm.hasRead n u

/-- Who had seen the newest message of a location sees it after the store, unless it is
another thread's store to that location. -/
theorem newest (h : Stored m m' o t l stamp value) {u : T} {l' : L}
    (hnew : m.Newest u l') (hown : l' = l → u = t) : m'.Newest u l' := by
  intro stamp' msg hmsg
  have hgrows : (m.views u).seen l' ≤ (m'.views u).seen l' := by
    by_cases hu : u = t
    · subst hu
      rw [h.view]
      by_cases hl : l' = l
      · subst hl
        rw [View.raise_seen]
        exact h.above.le
      · rw [View.raise_seen_of_ne _ hl]
    · rw [h.views hu]
  rcases h.cases hmsg with ⟨rfl, rfl, -⟩ | hold
  · rw [hown rfl, h.view, View.raise_seen]
  · exact (hnew.le hold).trans hgrows

end Stored

end Steps

/-! ### Plain accesses -/

section PlainSteps

variable [DecidableEq T] [DecidableEq N] {m : Memory T L N V W} {t : T} {n : N}

@[simp] theorem read_views_self : (m.read t n).2.views t = (m.views t).tick t :=
  learn_views_self _

theorem read_views_of_ne {u : T} (h : u ≠ t) : (m.read t n).2.views u = m.views u :=
  learn_views_of_ne h _

theorem read_plain_self : (m.read t n).2.plain n =
    { m.plain n with
      read := Function.update (m.plain n).read t ((m.views t).knows t + 1) } :=
  Function.update_self ..

theorem read_read_self : ((m.read t n).2.plain n).read t = (m.views t).knows t + 1 := by
  rw [read_plain_self]
  exact Function.update_self ..

theorem read_plain_of_ne {n' : N} (h : n' ≠ n) : (m.read t n).2.plain n' = m.plain n' :=
  Function.update_of_ne h ..

/-- Reading leaves every value and the record of the writes alone. -/
theorem read_plain (n' : N) :
    ((m.read t n).2.plain n').value = (m.plain n').value ∧
      ((m.read t n).2.plain n').writer = (m.plain n').writer ∧
      ((m.read t n).2.plain n').written = (m.plain n').written := by
  by_cases hn : n' = n
  · subst hn
    rw [read_plain_self]
    exact ⟨rfl, rfl, rfl⟩
  · rw [read_plain_of_ne hn]
    exact ⟨rfl, rfl, rfl⟩

@[simp] theorem write_views_self [Fintype T] (value : W n) :
    (m.write t n value).views t = (m.views t).tick t :=
  learn_views_self _

theorem write_views_of_ne [Fintype T] {u : T} (h : u ≠ t) (value : W n) :
    (m.write t n value).views u = m.views u :=
  learn_views_of_ne h _

theorem write_plain_self [Fintype T] (value : W n) : (m.write t n value).plain n =
    { m.plain n with value, writer := t, written := (m.views t).knows t + 1 } :=
  Function.update_self ..

theorem write_plain_of_ne [Fintype T] {n' : N} (h : n' ≠ n) (value : W n) :
    (m.write t n value).plain n' = m.plain n' :=
  Function.update_of_ne h ..

theorem read_raced (hknown : m.knowsWrite t n = true) :
    (m.read t n).2.raced = m.raced := by
  show (m.raced || !m.knowsWrite t n) = m.raced
  rw [hknown, Bool.not_true, Bool.or_false]

theorem write_raced [Fintype T] {value : W n} (hwrite : m.knowsWrite t n = true)
    (hreads : m.knowsReads t n = true) : (m.write t n value).raced = m.raced := by
  show (m.raced || !(m.knowsWrite t n && m.knowsReads t n)) = m.raced
  rw [hwrite, hreads, Bool.and_self, Bool.not_true, Bool.or_false]

theorem WellFormed.read (hm : m.WellFormed) : (m.read t n).2.WellFormed := by
  have hlearn := hm.tick t
  refine ⟨⟨hlearn.reached.thread, hlearn.reached.message⟩,
    ⟨hlearn.truthful.thread, hlearn.truthful.message⟩, hlearn.carried, ?_, ?_⟩
  · intro n'
    rw [(read_plain n').2.1, (read_plain n').2.2]
    exact hlearn.wrote n'
  · intro n' u
    have hr := hlearn.hasRead n' u
    by_cases hn : n' = n
    · subst hn
      rw [read_plain_self]
      by_cases hu : u = t
      · subst hu
        simp
      · simp only [Function.update_of_ne hu]
        exact hr
    · rw [read_plain_of_ne hn]
      exact hr

theorem WellFormed.write [Fintype T] (hm : m.WellFormed) (value : W n) :
    (m.write t n value).WellFormed := by
  have hlearn := hm.tick t
  refine ⟨⟨hlearn.reached.thread, hlearn.reached.message⟩,
    ⟨hlearn.truthful.thread, hlearn.truthful.message⟩, hlearn.carried, ?_, ?_⟩
  · intro n'
    by_cases hn : n' = n
    · subst hn
      rw [write_plain_self]
      simp
    · rw [write_plain_of_ne hn]
      exact hlearn.wrote n'
  · intro n' u
    have hr := hlearn.hasRead n' u
    by_cases hn : n' = n
    · subst hn
      rw [write_plain_self]
      exact hr
    · rw [write_plain_of_ne hn]
      exact hr

end PlainSteps

/-! ## Accesses in modification order

As long as every load reads the newest message and every store goes behind it, the memory
holds one value per location and the views do not matter.
-/

/-- `stamp` and `value` are those of the newest messages, and no view is ahead of them.
-/
structure Latest (m : Memory T L N V W) (stamp : L → Nat) (value : L → V) : Prop where
  message : ∀ l, ∃ msg, m.messages l (stamp l) = some msg ∧ msg.value = value l
  top : ∀ {l s msg}, m.messages l s = some msg → s ≤ stamp l
  views : m.Views fun v => ∀ l, v.seen l ≤ stamp l

theorem Latest.fresh (value : V) (owner : T) (contents : (n : N) → W n) :
    (fresh value owner contents : Memory T L N V W).Latest (fun _ => 0)
      fun _ => value where
  message _ := ⟨_, rfl, rfl⟩
  top h := (fresh_message h).1.le
  views :=
    { thread := fun _ _ => le_rfl
      message := fun h _ => by rw [(fresh_message h).2]; exact le_rfl }

section Latest

variable [DecidableEq T] {m : Memory T L N V W} {stamp : L → Nat} {value : L → V}

theorem Latest.learn (h : m.Latest stamp value) {t : T} {view : View T L}
    (hview : ∀ l, view.seen l ≤ stamp l) : (m.learn t view).Latest stamp value :=
  ⟨h.message, h.top, h.views.learn hview⟩

theorem Latest.load [DecidableEq L] (h : m.Latest stamp value) (o : LoadOrder)
    (t : T) (l : L) :
    ∃ m', m.load o t l (stamp l) = some (value l, m') ∧ m'.Latest stamp value ∧
      m'.plain = m.plain := by
  obtain ⟨msg, hmsg, hvalue⟩ := h.message l
  refine ⟨_, load_eq_some.2 ⟨msg, hmsg, h.views.thread t l, hvalue.symm, rfl⟩,
    h.learn ?_, rfl⟩
  intro l'
  refine max_le ?_ ?_
  · by_cases hl : l' = l
    · subst hl
      rw [View.raise_seen]
    · rw [View.raise_seen_of_ne _ hl]
      exact h.views.thread t l'
  · cases o with
    | relaxed => exact Nat.zero_le _
    | acquire => exact h.views.message hmsg l'

theorem Latest.store [DecidableEq L] (h : m.Latest stamp value) (o : StoreOrder)
    (t : T) (l : L) (v : V) :
    ∃ m', m.store o t l (stamp l + 1) v = some m' ∧ m'.plain = m.plain ∧
      m'.Latest (Function.update stamp l (stamp l + 1)) (Function.update value l v) := by
  have habove : (m.views t).seen l < stamp l + 1 :=
    Nat.lt_succ_of_le (h.views.thread t l)
  have hfree : m.messages l (stamp l + 1) = none := by
    by_contra hsome
    obtain ⟨msg, hmsg⟩ := Option.ne_none_iff_exists'.1 hsome
    exact absurd (h.top hmsg) (Nat.not_succ_le_self _)
  obtain ⟨m', hm'⟩ : ∃ m', m.store o t l (stamp l + 1) v = some m' :=
    ⟨_, store_eq_some.2 ⟨habove, hfree, rfl⟩⟩
  have hstored := Stored.of_store hm'
  have hle : ∀ l', stamp l' ≤ Function.update stamp l (stamp l + 1) l' := by
    intro l'
    by_cases hl : l' = l
    · subst hl
      rw [Function.update_self]
      exact Nat.le_succ _
    · rw [Function.update_of_ne hl]
  have hraise : ∀ w : View T L, (∀ l', w.seen l' ≤ stamp l') →
      ∀ l', (w.raise l (stamp l + 1)).seen l' ≤
        Function.update stamp l (stamp l + 1) l' := by
    intro w hw l'
    by_cases hl : l' = l
    · subst hl
      rw [View.raise_seen, Function.update_self]
    · rw [View.raise_seen_of_ne _ hl]
      exact (hw l').trans (hle l')
  refine ⟨m', hm', hstored.plain, ?_, ?_, ?_, ?_⟩
  · intro l'
    by_cases hl : l' = l
    · subst hl
      rw [Function.update_self, Function.update_self]
      exact ⟨_, hstored.message, rfl⟩
    · rw [Function.update_of_ne hl, Function.update_of_ne hl, hstored.messages_of_ne hl]
      exact h.message l'
  · intro l' s msg hmsg
    rcases hstored.cases hmsg with ⟨rfl, rfl, -⟩ | hold
    · rw [Function.update_self]
    · exact (h.top hold).trans (hle l')
  · intro u
    by_cases hu : u = t
    · subst hu
      rw [hstored.view]
      exact hraise _ (h.views.thread u)
    · rw [hstored.views hu]
      exact fun l' => (h.views.thread u l').trans (hle l')
  · intro l' s msg hmsg
    rcases hstored.cases hmsg with ⟨-, -, rfl⟩ | hold
    · cases o with
      | relaxed => exact hraise _ fun _ => Nat.zero_le _
      | release => exact hraise _ (h.views.thread t)
    · exact fun l'' => (h.views.message hold l'').trans (hle l'')

theorem Latest.tick (h : m.Latest stamp value) (t : T) :
    (m.learn t ((m.views t).tick t)).Latest stamp value :=
  h.learn (h.views.thread t)

theorem Latest.read [DecidableEq N] (h : m.Latest stamp value) (t : T) (n : N) :
    (m.read t n).2.Latest stamp value :=
  ⟨h.message, h.top, (h.tick t).views.thread, (h.tick t).views.message⟩

theorem Latest.write [DecidableEq N] [Fintype T] (h : m.Latest stamp value)
    (t : T) (n : N) (x : W n) : (m.write t n x).Latest stamp value :=
  ⟨h.message, h.top, (h.tick t).views.thread, (h.tick t).views.message⟩

end Latest

/-! ## Counters

A location whose messages count up: `count` says what the message at a stamp stands for.
-/

/-- The messages of `l` encode counts that only grow along the stamps. -/
structure Counter (m : Memory T L N V W) (l : L) (encode : Nat → V) (count : Nat → Nat)
    (total : Nat) : Prop where
  value : ∀ {stamp msg}, m.messages l stamp = some msg → msg.value = encode (count stamp)
  le : ∀ {stamp msg}, m.messages l stamp = some msg → count stamp ≤ total
  mono : ∀ {a b x y}, m.messages l a = some x → m.messages l b = some y → a ≤ b →
    count a ≤ count b

namespace Counter

variable {m m' : Memory T L N V W} {l : L} {encode : Nat → V} {count : Nat → Nat}
  {total : Nat}

theorem congr (h : m.Counter l encode count total)
    (heq : ∀ stamp, m'.messages l stamp = m.messages l stamp) :
    m'.Counter l encode count total where
  value hmsg := h.value (heq _ ▸ hmsg)
  le hmsg := h.le (heq _ ▸ hmsg)
  mono hx hy := h.mono (heq _ ▸ hx) (heq _ ▸ hy)

/-- Moving on to a message that is no older moves on to a count that is no less. -/
theorem mono_seen (h : m.Counter l encode count total) {v : View T L} (hv : m.Reached v)
    {stamp : Nat} {msg : Message T L V} (hmsg : m.messages l stamp = some msg)
    (hle : v.seen l ≤ stamp) : count (v.seen l) ≤ count stamp := by
  obtain ⟨x, hx⟩ := Option.isSome_iff_exists.1 (hv l)
  exact h.mono hx hmsg hle

/-- A thread that has seen the newest message counts on. -/
theorem store [DecidableEq T] [DecidableEq L] {o : StoreOrder} {t : T} {stamp n : Nat}
    (h : m.Counter l encode count total) (hst : Stored m m' o t l stamp (encode n))
    (hnew : m.Newest t l) (hn : total ≤ n) :
    m'.Counter l encode (Function.update count stamp n) n := by
  have hold : ∀ {a x}, m.messages l a = some x → Function.update count stamp n a =
      count a := by
    intro a x hx
    refine Function.update_of_ne (fun heq => ?_) ..
    rw [heq, hst.free] at hx
    cases hx
  refine ⟨?_, ?_, ?_⟩
  · intro a msg hmsg
    rcases hst.cases hmsg with ⟨-, rfl, rfl⟩ | hx
    · rw [Function.update_self]
    · rw [hold hx]
      exact h.value hx
  · intro a msg hmsg
    rcases hst.cases hmsg with ⟨-, rfl, rfl⟩ | hx
    · rw [Function.update_self]
    · rw [hold hx]
      exact (h.le hx).trans hn
  · intro a b x y hx hy hab
    rcases hst.cases hx with ⟨-, rfl, -⟩ | hx'
    · rcases hst.cases hy with ⟨-, rfl, -⟩ | hy'
      · exact le_rfl
      · exact absurd ((hnew.le hy').trans_lt hst.above) (not_lt.2 hab)
    · rw [hold hx']
      rcases hst.cases hy with ⟨-, rfl, -⟩ | hy'
      · rw [Function.update_self]
        exact (h.le hx').trans hn
      · rw [hold hy']
        exact h.mono hx' hy' hab

end Counter

/-- Who has seen a message of `l` knows as many accesses of `t` as
the message stands for. -/
def Accounts (l : L) (t : T) (accesses : Nat → Nat) (v : View T L) : Prop :=
  accesses (v.seen l) ≤ v.knows t

section Accounts

variable {m m' : Memory T L N V W} {l : L} {t : T} {accesses : Nat → Nat}
  {v w : View T L}

theorem Accounts.join (hv : Accounts l t accesses v) (hw : Accounts l t accesses w) :
    Accounts l t accesses (v.join w) := by
  unfold Accounts at *
  rcases View.join_seen v w l with h | h
  · rw [h]
    exact hv.trans (le_max_left ..)
  · rw [h]
    exact hw.trans (le_max_right ..)

theorem Accounts.tick [DecidableEq T] (hv : Accounts l t accesses v) (u : T) :
    Accounts l t accesses (v.tick u) :=
  le_trans hv (View.knows_le_tick v u t)

variable [DecidableEq T] [DecidableEq L] {o : StoreOrder} {u : T} {l' : L}
  {stamp n : Nat} {value : V}

/-- A store that stands for no more accesses than its message tells of. -/
theorem Stored.accounts (hst : Stored m m' o u l stamp value) (hm : m.WellFormed)
    (hacc : m.Views (Accounts l t accesses)) (hthread : n ≤ (m.views u).knows t)
    (hmessage : n ≤ (o.gives (m.views u) l stamp).knows t) :
    m'.Views (Accounts l t (Function.update accesses stamp n)) := by
  refine hst.viewsOf hm hacc (fun v hv hacc => ?_) ?_ ?_
  · unfold Accounts at *
    rwa [Function.update_of_ne (hst.seen_ne hv)]
  · unfold Accounts
    rw [View.raise_seen, Function.update_self]
    exact hthread
  · unfold Accounts
    rw [Stored.gives_seen_self, Function.update_self]
    exact hmessage

/-- A store to another location. -/
theorem Stored.accounts_of_ne (hst : Stored m m' o u l' stamp value) (hm : m.WellFormed)
    (hacc : m.Views (Accounts l t accesses)) (hne : l ≠ l') (hzero : accesses 0 = 0) :
    m'.Views (Accounts l t accesses) := by
  have hraise : ∀ {v : View T L}, Accounts l t accesses v →
      Accounts l t accesses (v.raise l' stamp) := by
    intro v hv
    unfold Accounts at *
    rw [View.raise_seen_of_ne _ hne]
    exact hv
  refine hst.viewsOf hm hacc (fun v _ hv => hv) (hraise (hacc.thread u)) ?_
  cases o with
  | relaxed => exact hraise (hzero.le : accesses 0 ≤ 0)
  | release => exact hraise (hacc.thread u)

end Accounts

end Memory

end Candlestore.Lib
