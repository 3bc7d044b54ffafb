/-
  What holds of a `CCheckQueue` between critical sections, whatever the schedule:
  the counters count, no check is lost or taken twice, and the verdict so far is
  spread over `fAllOk`, the batches that threads work on and the queue.  When
  `Wait` returns, the first of these is all of it.
-/
import Rcoin.CheckQueue.Loop

namespace Rcoin

open Finset Function List Option

/-! ## Sums over threads -/

theorem sum_update {ι X : Type*} [DecidableEq ι] [Fintype ι] (f : X → Nat) (g : ι → X) (i : ι)
    (x : X) : ∑ j, f (Function.update g i x j) + f (g i) = ∑ j, f (g j) + f x := by
  have hrest : ∑ j ∈ Finset.univ.erase i, f (Function.update g i x j) =
      ∑ j ∈ Finset.univ.erase i, f (g j) := by
    refine sum_congr rfl fun j hj => ?_
    rw [update_of_ne (ne_of_mem_erase hj)]
  rw [← add_sum_erase Finset.univ (fun j => f (Function.update g i x j))
      (mem_univ i),
    ← add_sum_erase Finset.univ (fun j => f (g j)) (mem_univ i), hrest,
    update_self]
  omega

namespace LoopState

variable {T : Type*}

/-- The checks the thread has taken and not reported on. -/
def held : LoopState T → List T
  | working vChecks _ => vChecks
  | _ => []

/-- One for a thread that waits. -/
def idle : LoopState T → Nat
  | waiting _ => 1
  | _ => 0

/-- One for a thread in `Loop`. -/
def inside : LoopState T → Nat
  | outside => 0
  | _ => 1

/-- What the thread will say of its batch. -/
def outcome (eval : T → Bool) : LoopState T → Bool
  | working vChecks fOk => CCheckQueue.runChecks eval fOk vChecks
  | _ => true

end LoopState

open LoopState

namespace CCheckQueue

variable {W T : Type*} [DecidableEq W]

theorem runChecks_eq (eval : T → Bool) (fOk : Bool) (vChecks : List T) :
    runChecks eval fOk vChecks = (fOk && vChecks.all eval) := by
  induction vChecks generalizing fOk with
  | nil => cases fOk <;> rfl
  | cons c vChecks ih =>
    show runChecks eval (if fOk then eval c else fOk) vChecks = _
    rw [ih, all_cons]
    cases fOk <;> rfl

omit [DecidableEq W] in
theorem nNow_pos (q : CCheckQueue W T) : 0 < q.nNow :=
  Nat.lt_of_lt_of_le Nat.one_pos (le_max_left _ _)

/-! ## The invariant -/

variable [Fintype W]

/-- The counters count: the checks still to report on, the threads that wait and
    the threads in `Loop`. -/
structure Counted (q : CCheckQueue W T) (threads : Option W → LoopState T) : Prop where
  todo : q.nTodo = q.queue.length + ∑ t, (threads t).held.length
  idle : q.nIdle = ∑ t, (threads t).idle
  total : q.nTotal = ∑ t, (threads t).inside

/-- The verdict of the checks since the last `Wait` is spread over `fAllOk`, the
    batches and the queue. -/
def Verdict (eval : T → Bool) (q : CCheckQueue W T) (threads : Option W → LoopState T)
    (es : List (QueueEvent W T)) : Prop :=
  (q.fAllOk = true ∧ (∀ t, (threads t).outcome eval = true) ∧ ∀ c ∈ q.queue, eval c = true) ↔
    ∀ c ∈ QueueEvent.addedSinceWait es, eval c = true

/-- No check is lost, none is taken twice. -/
def Taken (q : CCheckQueue W T) (es : List (QueueEvent W T)) : Prop :=
  (QueueEvent.allAdded es).Perm (q.queue ++ (QueueEvent.allTaken es).map Prod.snd)

/-- Between critical sections. -/
structure Accounts (eval : T → Bool) (q : CCheckQueue W T) (es : List (QueueEvent W T)) :
    Prop where
  counted : q.Counted q.threads
  verdict : q.Verdict eval q.threads es
  taken : q.Taken es
  /-- A batch is never empty. -/
  busy : ∀ t vChecks fOk, q.threads t = .working vChecks fOk → vChecks ≠ []
  /-- The master sleeps only while workers have the rest of the checks. -/
  asleep : q.threads none = .waiting false → q.queue = [] ∧ q.nTodo ≠ 0

/-- The threads while `t` is in a critical section: it has nothing to report. -/
def locked (q : CCheckQueue W T) (t : Option W) : Option W → LoopState T :=
  Function.update q.threads t (.working [] true)

/-- Inside a critical section of `t`, after the clean-up. -/
structure Locked (eval : T → Bool) (q : CCheckQueue W T) (t : Option W)
    (es : List (QueueEvent W T)) : Prop where
  counted : q.Counted (q.locked t)
  verdict : q.Verdict eval (q.locked t) es
  taken : q.Taken es
  busy : ∀ t', t' ≠ t → ∀ vChecks fOk, q.threads t' = .working vChecks fOk → vChecks ≠ []
  asleep : t ≠ none → q.threads none = .waiting false → q.queue = [] ∧ q.nTodo ≠ 0

/-! ## Marks -/

/-- The same up to whether a wake-up is on its way. -/
def SameButMark (x y : LoopState T) : Prop := x = y ∨ ∃ b b', x = .waiting b ∧ y = .waiting b'

omit [DecidableEq W] [Fintype W] in
theorem SameButMark.facts {x y : LoopState T} (h : SameButMark x y) :
    y.held = x.held ∧ y.idle = x.idle ∧ y.inside = x.inside ∧
      (∀ eval, y.outcome eval = x.outcome eval) ∧
      ∀ vChecks fOk, y = .working vChecks fOk → x = .working vChecks fOk := by
  rcases h with rfl | ⟨b, b', rfl, rfl⟩
  · exact ⟨rfl, rfl, rfl, fun _ => rfl, fun _ _ h => h⟩
  · exact ⟨rfl, rfl, rfl, fun _ => rfl, fun _ _ h => by cases h⟩

omit [DecidableEq W] in
theorem Counted.congr {q : CCheckQueue W T} {threads threads' : Option W → LoopState T}
    (h : q.Counted threads) (hsame : ∀ t, SameButMark (threads t) (threads' t)) :
    q.Counted threads' where
  todo := by
    rw [h.todo]
    exact congrArg _ (sum_congr rfl fun t _ => by rw [(hsame t).facts.1])
  idle := by
    rw [h.idle]
    exact sum_congr rfl fun t _ => (hsame t).facts.2.1.symm
  total := by
    rw [h.total]
    exact sum_congr rfl fun t _ => (hsame t).facts.2.2.1.symm

omit [DecidableEq W] [Fintype W] in
theorem Verdict.congr {eval : T → Bool} {q : CCheckQueue W T}
    {threads threads' : Option W → LoopState T} {es : List (QueueEvent W T)}
    (h : q.Verdict eval threads es) (hsame : ∀ t, SameButMark (threads t) (threads' t)) :
    q.Verdict eval threads' es := by
  have hout : (∀ t, (threads' t).outcome eval = true) ↔ ∀ t, (threads t).outcome eval = true := by
    refine forall_congr' fun t => ?_
    rw [(hsame t).facts.2.2.2.1]
  rw [Verdict, hout]
  exact h

omit [Fintype W] in
theorem notify_same (q : CCheckQueue W T) (t t' : Option W) :
    SameButMark (q.threads t') ((q.notify t).threads t') := by
  unfold notify
  split
  next b hb =>
    show SameButMark _ (Function.update q.threads t _ t')
    rw [update_apply]
    split
    next ht => exact .inr ⟨b, true, ht ▸ hb, rfl⟩
    next => exact .inl rfl
  next => exact .inl rfl

omit [Fintype W] in
theorem notify_fields (q : CCheckQueue W T) (t : Option W) :
    (q.notify t).queue = q.queue ∧ (q.notify t).nIdle = q.nIdle ∧
      (q.notify t).nTotal = q.nTotal ∧ (q.notify t).fAllOk = q.fAllOk ∧
      (q.notify t).nTodo = q.nTodo := by
  unfold notify
  split
  · exact ⟨rfl, rfl, rfl, rfl, rfl⟩
  · exact ⟨rfl, rfl, rfl, rfl, rfl⟩

omit [Fintype W] in
theorem notify_marked (q : CCheckQueue W T) (t : Option W) :
    (q.notify t).threads t ≠ .waiting false := by
  unfold notify
  split
  next =>
    show Function.update q.threads t _ t ≠ _
    rw [update_self]
    intro h
    cases h
  next hne => exact fun h => hne false h

/-! ## Histories -/

end CCheckQueue

open CCheckQueue

namespace QueueEvent

variable {W T : Type*}

theorem allAdded_append (es es' : List (QueueEvent W T)) :
    allAdded (es ++ es') = allAdded es ++ allAdded es' := by
  induction es with
  | nil => rfl
  | cons e es ih =>
    cases e with
    | added vChecks => exact (congrArg _ ih).trans (append_assoc ..).symm
    | took t vChecks => exact ih
    | slept t => exact ih
    | returned fRet => exact ih

theorem allTaken_append (es es' : List (QueueEvent W T)) :
    allTaken (es ++ es') = allTaken es ++ allTaken es' := by
  induction es with
  | nil => rfl
  | cons e es ih =>
    cases e with
    | added vChecks => exact ih
    | took t vChecks => exact (congrArg _ ih).trans (append_assoc ..).symm
    | slept t => exact ih
    | returned fRet => exact ih

theorem addedSinceWait_snoc (es : List (QueueEvent W T)) (e : QueueEvent W T) :
    addedSinceWait (es ++ [e]) =
      match e with
      | .added vChecks => addedSinceWait es ++ vChecks
      | .returned _ => []
      | _ => addedSinceWait es := by
  rw [addedSinceWait, foldl_append]
  rfl

end QueueEvent

open QueueEvent

namespace CCheckQueue

variable {W T : Type*} [DecidableEq W] [Fintype W]

variable {e : QueueEvent W T}

omit [DecidableEq W] [Fintype W] in
theorem Taken.quiet {q q' : CCheckQueue W T} {es : List (QueueEvent W T)} (h : q.Taken es)
    (hq : q'.queue = q.queue) (hadded : allAdded [e] = [])
    (htaken : allTaken [e] = []) : q'.Taken (es ++ [e]) := by
  rw [Taken, allAdded_append, allTaken_append, hadded, htaken, hq,
    List.append_nil, List.append_nil]
  exact h

/-! ## Entering a critical section -/

omit [Fintype W] in
theorem locked_self (q : CCheckQueue W T) (t : Option W) : q.locked t t = .working [] true :=
  update_self ..

omit [Fintype W] in
theorem locked_of_ne (q : CCheckQueue W T) {t t' : Option W} (h : t' ≠ t) :
    q.locked t t' = q.threads t' := update_of_ne h ..

theorem sum_locked (f : LoopState T → Nat) (q : CCheckQueue W T) (t : Option W) :
    ∑ t', f (q.locked t t') + f (q.threads t) =
      ∑ t', f (q.threads t') + f (.working [] true) := sum_update f q.threads t _

omit [Fintype W] in
theorem outcome_locked (eval : T → Bool) (q : CCheckQueue W T) (t : Option W) :
    (∀ t', (q.threads t').outcome eval = true) ↔
      (q.threads t).outcome eval = true ∧ ∀ t', (q.locked t t').outcome eval = true := by
  constructor
  · intro h
    refine ⟨h t, fun t' => ?_⟩
    by_cases ht : t' = t
    · rw [ht, locked_self]
      rfl
    · rw [locked_of_ne q ht]
      exact h t'
  · rintro ⟨ht, h⟩ t'
    by_cases hne : t' = t
    · rw [hne]
      exact ht
    · rw [← locked_of_ne q hne]
      exact h t'

variable {eval : T → Bool} {q : CCheckQueue W T} {es : List (QueueEvent W T)}

theorem Accounts.lock_outside (h : q.Accounts eval es) {t : Option W}
    (ht : q.threads t = .outside) : (q.cleanUp eval t [] true).Locked eval t es := by
  have hheld := sum_locked (fun x => x.held.length) q t
  have hidle := sum_locked idle q t
  have hinside := sum_locked inside q t
  rw [ht] at hheld hidle hinside
  refine ⟨⟨?_, ?_, ?_⟩, ?_, h.taken, fun t' _ => h.busy t', fun _ => h.asleep⟩
  · exact h.counted.todo.trans (congrArg _ hheld.symm)
  · exact h.counted.idle.trans hidle.symm
  · show q.nTotal + 1 = _
    rw [h.counted.total]
    exact hinside.symm
  · have hv := h.verdict
    rw [Verdict, outcome_locked eval q t, ht] at hv
    refine .trans ?_ hv
    exact ⟨fun hc => ⟨hc.1, ⟨rfl, hc.2.1⟩, hc.2.2⟩, fun hc => ⟨hc.1, hc.2.1.2, hc.2.2⟩⟩

variable {vChecks : List T}

theorem Accounts.lock_working (h : q.Accounts eval es) {t : Option W} {fOk : Bool}
    (ht : q.threads t = .working vChecks fOk) :
    (q.cleanUp eval t vChecks fOk).Locked eval t es := by
  have hlen : vChecks.length ≠ 0 := fun h0 =>
    h.busy t vChecks fOk ht (eq_nil_of_length_eq_zero h0)
  -- the state after the report, before a notification
  obtain ⟨q', hq'⟩ : ∃ q', { q with
    fAllOk := q.fAllOk && runChecks eval fOk vChecks
    nTodo := q.nTodo - vChecks.length } = q' := ⟨_, rfl⟩
  have hclean : q.cleanUp eval t vChecks fOk =
      if q'.nTodo = 0 ∧ t ≠ none then q'.notify none else q' := by
    rw [cleanUp, if_pos hlen, ← hq']
  have hthreads : q'.threads = q.threads := by rw [← hq']
  have hqueue : q'.queue = q.queue := by rw [← hq']
  have htodo : q'.nTodo = q.nTodo - vChecks.length := by rw [← hq']
  have hlocked : q'.locked t = q.locked t := by rw [locked, locked, hthreads]
  have hheld := sum_locked (fun x => x.held.length) q t
  have hidle := sum_locked idle q t
  have hinside := sum_locked inside q t
  rw [ht] at hheld hidle hinside
  have hcounted : q'.Counted (q'.locked t) := by
    rw [hlocked]
    constructor
    · have hsum : ∑ t', (q.locked t t').held.length + vChecks.length =
          ∑ t', (q.threads t').held.length := hheld
      rw [htodo, hqueue, h.counted.todo, ← hsum]
      omega
    · rw [← hq']
      exact h.counted.idle.trans hidle.symm
    · rw [← hq']
      exact h.counted.total.trans (Nat.add_right_cancel hinside).symm
  have hverdict : q'.Verdict eval (q'.locked t) es := by
    have hv := h.verdict
    rw [Verdict, outcome_locked eval q t, ht] at hv
    rw [Verdict, hlocked, hqueue]
    refine .trans ?_ hv
    have hall : q'.fAllOk = true ↔
        q.fAllOk = true ∧ (working vChecks fOk).outcome eval = true := by
      rw [← hq']
      exact Bool.and_eq_true_iff
    rw [hall]
    exact ⟨fun hc => ⟨hc.1.1, ⟨hc.1.2, hc.2.1⟩, hc.2.2⟩,
      fun hc => ⟨⟨hc.1, hc.2.1.1⟩, hc.2.1.2, hc.2.2⟩⟩
  have hbusy : ∀ t', t' ≠ t → ∀ vs ok, q'.threads t' = .working vs ok → vs ≠ [] := by
    intro t' _ vs ok hw
    exact h.busy t' vs ok (hthreads ▸ hw)
  rw [hclean]
  split
  next hnotify =>
    obtain ⟨hqn, hin, htn, hfn, hton⟩ := notify_fields q' none
    have hsame : ∀ t', SameButMark (q'.locked t t') ((q'.notify none).locked t t') := by
      intro t'
      by_cases heq : t' = t
      · rw [heq, locked_self, locked_self]
        exact .inl rfl
      · rw [locked_of_ne _ heq, locked_of_ne _ heq]
        exact notify_same q' none t'
    refine ⟨?_, ?_, ?_, ?_, ?_⟩
    · have hc := hcounted.congr hsame
      exact ⟨by rw [hton, hqn]; exact hc.todo, by rw [hin]; exact hc.idle,
        by rw [htn]; exact hc.total⟩
    · have hv := hverdict.congr hsame
      rw [Verdict, hfn, hqn]
      exact hv
    · rw [Taken, hqn, hqueue]
      exact h.taken
    · intro t' hne vs ok hw
      exact hbusy t' hne vs ok ((notify_same q' none t').facts.2.2.2.2 vs ok hw)
    · exact fun _ hsleep => absurd hsleep (notify_marked q' none)
  next hnotify =>
    refine ⟨hcounted, hverdict, ?_, hbusy, ?_⟩
    · rw [Taken, hqueue]
      exact h.taken
    · intro hne hsleep
      rw [hthreads] at hsleep
      rw [hqueue]
      exact ⟨(h.asleep hsleep).1, fun h0 => hnotify ⟨h0, hne⟩⟩

theorem Accounts.lock_waiting (h : q.Accounts eval es) {t : Option W} {b : Bool}
    (ht : q.threads t = .waiting b) :
    ({ q with nIdle := q.nIdle - 1 } : CCheckQueue W T).Locked eval t es := by
  have hheld := sum_locked (fun x => x.held.length) q t
  have hidle := sum_locked idle q t
  have hinside := sum_locked inside q t
  rw [ht] at hheld hidle hinside
  refine ⟨⟨?_, ?_, ?_⟩, ?_, h.taken, fun t' _ => h.busy t', fun _ => h.asleep⟩
  · exact h.counted.todo.trans (congrArg _ hheld.symm)
  · have hsum : ∑ t', (q.locked t t').idle + 1 = ∑ t', (q.threads t').idle := hidle
    show q.nIdle - 1 = ∑ t', (q.locked t t').idle
    rw [h.counted.idle, ← hsum, Nat.add_sub_cancel]
  · exact h.counted.total.trans (Nat.add_right_cancel hinside).symm
  · have hv := h.verdict
    rw [Verdict, outcome_locked eval q t, ht] at hv
    refine .trans ?_ hv
    exact ⟨fun hc => ⟨hc.1, ⟨rfl, hc.2.1⟩, hc.2.2⟩, fun hc => ⟨hc.1, hc.2.1.2, hc.2.2⟩⟩

/-! ## Leaving a critical section -/

omit [Fintype W] in
theorem setThread_eq_locked (q : CCheckQueue W T) (t : Option W) (x : LoopState T) :
    Function.update q.threads t x = Function.update (q.locked t) t x :=
  (update_idem ..).symm

theorem sum_release (f : LoopState T → Nat) (q : CCheckQueue W T) (t : Option W)
    (x : LoopState T) :
    ∑ t', f (Function.update q.threads t x t') + f (.working [] true) =
      ∑ t', f (q.locked t t') + f x := by
  rw [setThread_eq_locked]
  have h := sum_update f (q.locked t) t x
  rw [locked_self] at h
  exact h

omit [Fintype W] in
theorem outcome_release (eval : T → Bool) (q : CCheckQueue W T) (t : Option W)
    (x : LoopState T) :
    (∀ t', (Function.update q.threads t x t').outcome eval = true) ↔
      x.outcome eval = true ∧ ∀ t', (q.locked t t').outcome eval = true := by
  constructor
  · intro h
    refine ⟨by simpa using h t, fun t' => ?_⟩
    by_cases heq : t' = t
    · rw [heq, locked_self]
      rfl
    · have ht := h t'
      rw [update_of_ne heq] at ht
      rw [locked_of_ne q heq]
      exact ht
  · rintro ⟨hx, h⟩ t'
    rw [update_apply]
    split
    · exact hx
    next heq => rw [← locked_of_ne q heq]; exact h t'

theorem Locked.idle_of_todo {t : Option W} (h : q.Locked eval t es) (hz : q.nTodo = 0)
    (t' : Option W) : (q.locked t t').held = [] := by
  have htodo := h.counted.todo
  have hsum : ∑ t', (q.locked t t').held.length = 0 := by omega
  exact eq_nil_of_length_eq_zero ((Finset.sum_eq_zero_iff.mp hsum) t' (mem_univ _))

theorem Locked.verdict_of_done {t : Option W} (h : q.Locked eval t es) (hz : q.nTodo = 0)
    (hq : q.queue = []) :
    q.fAllOk = true ↔ ∀ c ∈ addedSinceWait es, eval c = true := by
  have hout : ∀ t', (q.locked t t').outcome eval = true := by
    intro t'
    have hheld := h.idle_of_todo hz t'
    cases hx : q.locked t t' with
    | outside => rfl
    | waiting b => rfl
    | working vChecks fOk =>
      by_cases heq : t' = t
      · rw [heq, locked_self] at hx
        cases hx
        rfl
      · rw [hx] at hheld
        rw [locked_of_ne q heq] at hx
        exact absurd hheld (h.busy t' heq vChecks fOk hx)
  refine .trans ?_ h.verdict
  refine ⟨fun hf => ⟨hf, hout, ?_⟩, fun hc => hc.1⟩
  intro c hc
  rw [hq] at hc
  cases hc

/-- What holds when `Wait` returns. -/
structure Returned (eval : T → Bool) (q : CCheckQueue W T) (fRet : Bool)
    (es : List (QueueEvent W T)) : Prop where
  verdict : fRet = true ↔ ∀ c ∈ addedSinceWait es, eval c = true
  queue : q.queue = []
  todo : q.nTodo = 0
  allOk : q.fAllOk = true
  /-- No thread holds a check. -/
  idle : ∀ t vChecks fOk, q.threads t ≠ .working vChecks fOk
  /-- All checks were taken, each by one thread. -/
  taken : (allAdded es).Perm ((allTaken es).map Prod.snd)

omit [Fintype W] in
theorem setThread_cases {t t' : Option W} {x y : LoopState T}
    (h : (q.setThread t x).threads t' = y) :
    t' = t ∧ x = y ∨ t' ≠ t ∧ q.threads t' = y := by
  change Function.update q.threads t x t' = y at h
  rw [update_apply] at h
  split at h
  next ht => exact .inl ⟨ht, h⟩
  next ht => exact .inr ⟨ht, h⟩

theorem Locked.finish (h : q.Locked eval none es) (hz : q.nTodo = 0) (hq : q.queue = []) :
    Accounts eval ({ q with nTotal := q.nTotal - 1, fAllOk := true }.setThread none .outside)
        (es ++ [.returned q.fAllOk]) ∧
      Returned eval ({ q with nTotal := q.nTotal - 1, fAllOk := true }.setThread none .outside)
        q.fAllOk es := by
  have hbusy : ∀ t' vChecks fOk,
      (q.setThread none .outside).threads t' ≠ .working vChecks fOk := by
    intro t' vChecks fOk hw
    rcases setThread_cases hw with ⟨-, hx⟩ | ⟨hne, hw⟩
    · cases hx
    · have hnil := h.idle_of_todo hz t'
      rw [locked_of_ne q hne, hw] at hnil
      exact h.busy t' hne vChecks fOk hw hnil
  constructor
  · refine ⟨⟨?_, ?_, ?_⟩, ?_, ?_, ?_, ?_⟩
    · exact h.counted.todo.trans
        (congrArg _ (sum_release (fun x => x.held.length) q none .outside).symm)
    · exact h.counted.idle.trans (sum_release idle q none .outside).symm
    · have hsum : ∑ t', (Function.update q.threads none .outside t').inside + 1 =
          ∑ t', (q.locked none t').inside := sum_release inside q none .outside
      show q.nTotal - 1 = ∑ t', (Function.update q.threads none .outside t').inside
      rw [h.counted.total, ← hsum, Nat.add_sub_cancel]
    · rw [Verdict, addedSinceWait_snoc]
      refine iff_of_true ⟨rfl, fun t' => ?_, ?_⟩ (fun c hc => by cases hc)
      · show (Function.update q.threads none .outside t').outcome eval = true
        cases hx : Function.update q.threads none .outside t' with
        | outside => rfl
        | waiting b => rfl
        | working vChecks fOk => exact absurd hx (hbusy t' vChecks fOk)
      · intro c hc
        rw [hq] at hc
        cases hc
    · exact h.taken.quiet rfl rfl rfl
    · exact fun t' vChecks fOk hw => absurd hw (hbusy t' vChecks fOk)
    · intro hsleep
      rcases setThread_cases hsleep with ⟨-, hx⟩ | ⟨hne, -⟩
      · cases hx
      · exact absurd rfl hne
  · refine ⟨h.verdict_of_done hz hq, hq, hz, rfl, hbusy, ?_⟩
    have htaken := h.taken
    rw [Taken, hq] at htaken
    exact htaken

theorem Locked.sleep {t : Option W} (h : q.Locked eval t es) (hq : q.queue = [])
    (hmore : ¬ (t = none ∧ q.nTodo = 0)) :
    Accounts eval ({ q with nIdle := q.nIdle + 1 }.setThread t (.waiting false))
      (es ++ [.slept t]) := by
  refine ⟨⟨?_, ?_, ?_⟩, ?_, ?_, ?_, ?_⟩
  · exact h.counted.todo.trans
      (congrArg _ (sum_release (fun x => x.held.length) q t (.waiting false)).symm)
  · show q.nIdle + 1 = _
    rw [h.counted.idle]
    exact (sum_release idle q t (.waiting false)).symm
  · exact h.counted.total.trans
      (Nat.add_right_cancel (sum_release inside q t (.waiting false))).symm
  · rw [Verdict, addedSinceWait_snoc]
    refine .trans (and_congr_right fun _ => and_congr_left fun _ => ?_) h.verdict
    refine (outcome_release eval q t (.waiting false)).trans ?_
    exact ⟨fun hc => hc.2, fun hc => ⟨rfl, hc⟩⟩
  · exact h.taken.quiet rfl rfl rfl
  · intro t' vChecks fOk hw
    rcases setThread_cases hw with ⟨-, hx⟩ | ⟨hne, hw⟩
    · cases hx
    · exact h.busy t' hne vChecks fOk hw
  · intro hsleep
    rcases setThread_cases hsleep with ⟨ht, -⟩ | ⟨ht, hsleep⟩
    · exact ⟨hq, fun hz => hmore ⟨ht.symm, hz⟩⟩
    · exact h.asleep (Ne.symm ht) hsleep

theorem Locked.take {t : Option W} (h : q.Locked eval t es) (hne : q.queue ≠ []) :
    Accounts eval ({ q with queue := q.queue.drop q.nNow }.setThread t
      (.working (q.queue.take q.nNow) q.fAllOk)) (es ++ [.took t (q.queue.take q.nNow)]) := by
  have hsplit := take_append_drop q.nNow q.queue
  refine ⟨⟨?_, ?_, ?_⟩, ?_, ?_, ?_, ?_⟩
  · have hsum : ∑ t', (Function.update q.threads t
        (.working (q.queue.take q.nNow) q.fAllOk) t').held.length =
          ∑ t', (q.locked t t').held.length + (q.queue.take q.nNow).length :=
      sum_release (fun x => x.held.length) q t (.working (q.queue.take q.nNow) q.fAllOk)
    have hlen := congrArg List.length hsplit
    rw [length_append] at hlen
    show q.nTodo = (q.queue.drop q.nNow).length + ∑ t', (Function.update q.threads t
        (.working (q.queue.take q.nNow) q.fAllOk) t').held.length
    rw [hsum, h.counted.todo]
    omega
  · exact h.counted.idle.trans
      (sum_release idle q t (.working (q.queue.take q.nNow) q.fAllOk)).symm
  · exact h.counted.total.trans (Nat.add_right_cancel
      (sum_release inside q t (.working (q.queue.take q.nNow) q.fAllOk))).symm
  · rw [Verdict, addedSinceWait_snoc]
    refine .trans ?_ h.verdict
    have hout := outcome_release eval q t (.working (q.queue.take q.nNow) q.fAllOk)
    have hbatch : (working (q.queue.take q.nNow) q.fAllOk).outcome eval = true ↔
        q.fAllOk = true ∧ ∀ c ∈ q.queue.take q.nNow, eval c = true := by
      rw [outcome, runChecks_eq, Bool.and_eq_true, List.all_eq_true]
    have hall : (∀ c ∈ q.queue, eval c = true) ↔
        (∀ c ∈ q.queue.take q.nNow, eval c = true) ∧
          ∀ c ∈ q.queue.drop q.nNow, eval c = true := by
      rw [← List.forall_mem_append, hsplit]
    rw [hall]
    refine .trans (and_congr_right fun _ => and_congr_left fun _ => hout) ?_
    rw [hbatch]
    exact ⟨fun hc => ⟨hc.1, hc.2.1.2, hc.2.1.1.2, hc.2.2⟩,
      fun hc => ⟨hc.1, ⟨⟨hc.1, hc.2.2.1⟩, hc.2.1⟩, hc.2.2.2⟩⟩
  · have htaken := h.taken
    rw [Taken, allAdded_append, allTaken_append, List.map_append]
    show (allAdded es ++ []).Perm (q.queue.drop q.nNow ++ ((allTaken es).map
      Prod.snd ++ (((q.queue.take q.nNow).map (t, ·)) ++ []).map Prod.snd))
    have hsnd : (((q.queue.take q.nNow).map ((t : Option W), ·)) ++ []).map Prod.snd =
        q.queue.take q.nNow := by
      rw [List.append_nil, List.map_map]
      exact List.map_id _
    rw [hsnd, List.append_nil]
    refine htaken.trans ?_
    -- the batch moves from the queue to the end of the history
    have hmove : q.queue ++ (allTaken es).map Prod.snd = q.queue.take q.nNow ++
        (q.queue.drop q.nNow ++ (allTaken es).map Prod.snd) := by
      rw [← append_assoc, hsplit]
    rw [hmove, ← append_assoc (q.queue.drop q.nNow)]
    exact perm_append_comm
  · intro t' vChecks fOk hw
    rcases setThread_cases hw with ⟨-, hx⟩ | ⟨hne', hw⟩
    · cases hx
      intro hnil
      have hpos := q.nNow_pos
      rcases take_eq_nil_iff.mp hnil with h0 | h0
      · omega
      · exact hne h0
    · exact h.busy t' hne' vChecks fOk hw
  · intro hsleep
    rcases setThread_cases hsleep with ⟨-, hx⟩ | ⟨ht, hsleep⟩
    · cases hx
    · exact absurd (h.asleep (Ne.symm ht) hsleep).1 hne

theorem Locked.release {t : Option W} (h : q.Locked eval t es) :
    (q.takeOrWait t).1.Accounts eval (es ++ [(q.takeOrWait t).2]) ∧
      ∀ fRet, (q.takeOrWait t).2 = .returned fRet →
        (q.takeOrWait t).1.Returned eval fRet es := by
  rw [takeOrWait]
  split
  next hempty =>
    have hq : q.queue = [] := List.isEmpty_iff.mp hempty
    split
    next hdone =>
      obtain ⟨rfl, hz⟩ := hdone
      obtain ⟨haccounts, hreturned⟩ := h.finish hz hq
      exact ⟨haccounts, fun fRet hret => by cases hret; exact hreturned⟩
    next hmore => exact ⟨h.sleep hq hmore, fun fRet hret => by cases hret⟩
  next hempty =>
    have hne : q.queue ≠ [] := fun hnil => hempty (List.isEmpty_iff.mpr hnil)
    exact ⟨h.take hne, fun fRet hret => by cases hret⟩

/-! ## Adding -/

omit [DecidableEq W] in
theorem Accounts.push {q q' : CCheckQueue W T} (h : q.Accounts eval es) (vChecks : List T)
    (hqueue : q'.queue = vChecks.reverse ++ q.queue) (htodo : q'.nTodo = q.nTodo + vChecks.length)
    (hidle : q'.nIdle = q.nIdle) (htotal : q'.nTotal = q.nTotal) (hok : q'.fAllOk = q.fAllOk)
    (hsame : ∀ t, SameButMark (q.threads t) (q'.threads t))
    (hmaster : q'.threads none = .outside) :
    q'.Accounts eval (es ++ [.added vChecks]) := by
  have hcounted := h.counted.congr hsame
  have hverdict := h.verdict.congr hsame
  refine ⟨⟨?_, ?_, ?_⟩, ?_, ?_, ?_, ?_⟩
  · rw [htodo, hqueue, hcounted.todo, length_append, length_reverse]
    omega
  · rw [hidle]
    exact hcounted.idle
  · rw [htotal]
    exact hcounted.total
  · rw [Verdict] at hverdict
    rw [Verdict, addedSinceWait_snoc, hqueue, hok]
    simp only [List.forall_mem_append, List.mem_reverse]
    rw [← hverdict]
    exact ⟨fun hc => ⟨⟨hc.1, hc.2.1, hc.2.2.2⟩, hc.2.2.1⟩,
      fun hc => ⟨hc.1.1, hc.1.2.1, hc.2, hc.1.2.2⟩⟩
  · have htaken := h.taken
    rw [Taken, allAdded_append, allTaken_append, hqueue]
    show (allAdded es ++ (vChecks ++ [])).Perm
      (vChecks.reverse ++ q.queue ++ (allTaken es ++ []).map Prod.snd)
    rw [List.append_nil, List.append_nil, append_assoc]
    exact perm_append_comm.trans ((reverse_perm vChecks).symm.append htaken)
  · intro t vs ok hw
    exact h.busy t vs ok ((hsame t).facts.2.2.2.2 vs ok hw)
  · intro hsleep
    rw [hmaster] at hsleep
    cases hsleep

theorem Accounts.add (h : q.Accounts eval es) {woken : Option W} {q' : CCheckQueue W T}
    (hadd : q.add vChecks woken = some (q', e)) :
    q'.Accounts eval (es ++ [e]) ∧ ∀ fRet, e ≠ .returned fRet := by
  unfold CCheckQueue.add at hadd
  split at hadd
  next hout =>
    cases hadd
    refine ⟨?_, fun fRet hret => by cases hret⟩
    split
    next =>
      cases woken with
      | none => exact h.push vChecks rfl rfl rfl rfl rfl (fun t => .inl rfl) hout
      | some w =>
        -- one check wakes one worker, several wake all of them
        obtain ⟨qp, hqp⟩ : ∃ qp : CCheckQueue W T, { q with
          queue := vChecks.reverse ++ q.queue
          nTodo := q.nTodo + vChecks.length } = qp := ⟨_, rfl⟩
        rw [hqp]
        obtain ⟨hqn, hin, htn, hfn, hton⟩ := notify_fields qp (some w)
        have hmaster : (qp.notify (some w)).threads none = .outside := by
          unfold notify
          split
          · show Function.update qp.threads (some w) (.waiting true) none = _
            rw [update_of_ne (some_ne_none w).symm, ← hqp]
            exact hout
          · rw [← hqp]
            exact hout
        refine h.push vChecks ?_ ?_ ?_ ?_ ?_ ?_ hmaster
        · rw [hqn, ← hqp]
        · rw [hton, ← hqp]
        · rw [hin, ← hqp]
        · rw [htn, ← hqp]
        · rw [hfn, ← hqp]
        · intro t
          have hsame := notify_same qp (some w) t
          have hthreads : qp.threads = q.threads := by rw [← hqp]
          rw [hthreads] at hsame
          exact hsame
    next =>
      split
      next =>
        refine h.push vChecks rfl rfl rfl rfl rfl (fun t => ?_) hout
        dsimp only
        cases t with
        | none => exact .inl rfl
        | some w =>
          cases hw : q.threads (some w) with
          | outside => exact .inl rfl
          | working vs ok => exact .inl rfl
          | waiting b => exact .inr ⟨b, true, rfl, rfl⟩
      next => exact h.push vChecks rfl rfl rfl rfl rfl (fun t => .inl rfl) hout
  next => cases hadd

/-! ## Runs -/

theorem Accounts.step (h : q.Accounts eval es) {a : QueueAction W T} {q' : CCheckQueue W T}
    (hstep : q.step eval a = some (q', e)) :
    q'.Accounts eval (es ++ [e]) ∧ ∀ fRet, e = .returned fRet → q'.Returned eval fRet es := by
  have release : ∀ {t : Option W} {ql : CCheckQueue W T}, ql.Locked eval t es →
      some (ql.takeOrWait t) = some (q', e) →
      q'.Accounts eval (es ++ [e]) ∧ ∀ fRet, e = .returned fRet → q'.Returned eval fRet es := by
    intro t ql hl heq
    have hr := hl.release
    rw [Option.some.inj heq] at hr
    exact hr
  cases a with
  | add vChecks woken =>
    obtain ⟨hacc, hret⟩ := h.add hstep
    exact ⟨hacc, fun fRet he => absurd he (hret fRet)⟩
  | enter t =>
    have hstep : q.enter eval t = some (q', e) := hstep
    unfold enter at hstep
    split at hstep
    next ht => exact release (h.lock_outside ht) hstep
    next vChecks fOk ht => exact release (h.lock_working ht) hstep
    next => cases hstep
  | wake t =>
    have hstep : q.wake t = some (q', e) := hstep
    unfold wake at hstep
    split at hstep
    next b ht => exact release (h.lock_waiting ht) hstep
    next => cases hstep

theorem Accounts.run {as : List (QueueAction W T)} (h : q.Accounts eval es)
    {q' : CCheckQueue W T} {es' : List (QueueEvent W T)}
    (hrun : q.run eval as = some (q', es')) : q'.Accounts eval (es ++ es') := by
  induction as generalizing q es es' with
  | nil =>
    cases hrun
    rw [List.append_nil]
    exact h
  | cons a as ih =>
    rw [run, bind_eq_bind, bind_eq_some_iff] at hrun
    obtain ⟨⟨q1, e⟩, hstep, hrun⟩ := hrun
    rw [bind_eq_bind, bind_eq_some_iff] at hrun
    obtain ⟨⟨q2, es2⟩, hrest, heq⟩ := hrun
    cases heq
    have hacc := ih (h.step hstep).1 hrest
    rw [append_assoc] at hacc
    exact hacc

omit [DecidableEq W] in
theorem accounts_init (eval : T → Bool) (nBatchSize : Nat) :
    ({ nBatchSize := nBatchSize } : CCheckQueue W T).Accounts eval [] := by
  have hzero : ∀ f : LoopState T → Nat, f .outside = 0 →
      0 = ∑ t, f (({ nBatchSize := nBatchSize } : CCheckQueue W T).threads t) := by
    intro f hf
    exact (Finset.sum_eq_zero fun t _ => hf).symm
  refine ⟨⟨?_, hzero _ rfl, hzero _ rfl⟩, ?_, .refl _, fun t vs ok hw => ?_, fun hs => ?_⟩
  · show 0 = 0 + _
    rw [Nat.zero_add]
    exact hzero (fun x => x.held.length) rfl
  · exact iff_of_true ⟨rfl, fun _ => rfl, fun c hc => by cases hc⟩ (fun c hc => by cases hc)
  · cases hw
  · cases hs

/-! ## `Wait` returns

A wake-up nobody asked for changes nothing for long: the thread goes back to
sleep or takes a batch.  Of the other steps each brings the return closer, and
there is always one that a thread can do. -/

/-- The step is a wake-up without notification. -/
def Spurious (q : CCheckQueue W T) : QueueAction W T → Prop
  | .wake t => q.threads t = .waiting false
  | _ => False

instance (q : CCheckQueue W T) [DecidableEq T] (a : QueueAction W T) : Decidable (q.Spurious a) :=
  match a with
  | .wake t => inferInstanceAs (Decidable (q.threads t = .waiting false))
  | .add _ _ => isFalse id
  | .enter _ => isFalse id

end CCheckQueue

/-- One for a thread that is still to start or to react to a notification. -/
def LoopState.pending {T : Type*} : LoopState T → Nat
  | .outside => 1
  | .waiting true => 1
  | _ => 0

namespace CCheckQueue

variable {W T : Type*} [DecidableEq W] [Fintype W]
variable {eval : T → Bool} {q : CCheckQueue W T} {es : List (QueueEvent W T)}

/-- A bound on the steps up to the return of `Wait`. -/
def stepsLeft (q : CCheckQueue W T) : Nat := 2 * q.nTodo + ∑ t, (q.threads t).pending

/-- The steps of a schedule that are not spurious wake-ups. -/
def promptSteps [DecidableEq T] (eval : T → Bool) (q : CCheckQueue W T) :
    List (QueueAction W T) → Nat
  | [] => 0
  | a :: as =>
    match q.step eval a with
    | none => 0
    | some (q', _) => (if q.Spurious a then 0 else 1) + promptSteps eval q' as

theorem Accounts.exists_prompt (h : q.Accounts eval es) (hmaster : q.threads none ≠ .outside) :
    ∃ a, ¬ q.Spurious a ∧ (q.step eval a).isSome = true := by
  cases hm : q.threads none with
  | outside => exact absurd hm hmaster
  | working vChecks fOk =>
    refine ⟨.enter none, fun hs => hs, ?_⟩
    show (q.enter eval none).isSome = true
    rw [enter, hm]
    rfl
  | waiting b =>
    cases b with
    | true =>
      refine ⟨.wake none, fun hs => ?_, ?_⟩
      · have hs : q.threads none = .waiting false := hs
        rw [hm] at hs
        cases hs
      · show (q.wake none).isSome = true
        rw [wake, hm]
        rfl
    | false =>
      -- a worker has the checks that the master sleeps for
      obtain ⟨hqueue, htodo⟩ := h.asleep hm
      have hsum := h.counted.todo
      rw [hqueue, length_nil, Nat.zero_add] at hsum
      have hne : ∑ t, (q.threads t).held.length ≠ 0 := hsum ▸ htodo
      obtain ⟨t, -, ht⟩ := exists_ne_zero_of_sum_ne_zero hne
      cases hx : q.threads t with
      | outside => rw [hx] at ht; exact absurd rfl ht
      | waiting b => rw [hx] at ht; exact absurd rfl ht
      | working vChecks fOk =>
        refine ⟨.enter t, fun hs => hs, ?_⟩
        show (q.enter eval t).isSome = true
        rw [enter, hx]
        rfl

omit [Fintype W] in
theorem takeOrWait_pending (q : CCheckQueue W T) (t : Option W)
    (hret : ∀ fRet, (q.takeOrWait t).2 ≠ .returned fRet) :
    (q.takeOrWait t).1.nTodo = q.nTodo ∧
      ∃ x : LoopState T, x.pending = 0 ∧ x ≠ .outside ∧
        (q.takeOrWait t).1.threads = Function.update q.threads t x := by
  unfold takeOrWait at hret ⊢
  split
  next hempty =>
    rw [if_pos hempty] at hret
    split
    next hdone =>
      rw [if_pos hdone] at hret
      exact absurd rfl (hret _)
    next => exact ⟨rfl, .waiting false, rfl, nofun, rfl⟩
  next => exact ⟨rfl, .working _ _, rfl, nofun, rfl⟩

theorem sum_pending_release {q : CCheckQueue W T} {t : Option W} {x : LoopState T}
    (hx : x.pending = 0) :
    ∑ t', (Function.update q.threads t x t').pending + (q.threads t).pending =
      ∑ t', (q.threads t').pending := by
  have hsum := sum_update pending q.threads t x
  rw [hx] at hsum
  exact hsum

theorem sum_pending_notify (q : CCheckQueue W T) (t : Option W) :
    ∑ t', ((q.notify t).threads t').pending ≤ ∑ t', (q.threads t').pending + 1 := by
  unfold notify
  split
  next b hb =>
    have hsum := sum_update pending q.threads t (.waiting true)
    have hone : (waiting true : LoopState T).pending = 1 := rfl
    show ∑ t', (Function.update q.threads t (.waiting true) t').pending ≤ _
    omega
  next => omega

theorem cleanUp_pending (eval : T → Bool) (t : Option W) {vChecks : List T} (hne : vChecks ≠ [])
    (hle : vChecks.length ≤ q.nTodo) (fOk : Bool) :
    (q.cleanUp eval t vChecks fOk).stepsLeft < q.stepsLeft ∧
      ∀ t', SameButMark (q.threads t') ((q.cleanUp eval t vChecks fOk).threads t') := by
  have hpos : 0 < vChecks.length := length_pos_iff.mpr hne
  rw [cleanUp, if_pos (by omega)]
  dsimp only
  split
  next =>
    obtain ⟨q', hq'⟩ : ∃ q' : CCheckQueue W T, { q with
      fAllOk := q.fAllOk && runChecks eval fOk vChecks
      nTodo := q.nTodo - vChecks.length } = q' := ⟨_, rfl⟩
    have hthreads : q'.threads = q.threads := by rw [← hq']
    rw [hq']
    constructor
    · have hsum := sum_pending_notify q' none
      have htodo : (q'.notify none).nTodo = q.nTodo - vChecks.length := by
        rw [(notify_fields q' none).2.2.2.2, ← hq']
      rw [stepsLeft, stepsLeft, htodo]
      rw [hthreads] at hsum
      omega
    · intro t'
      have hsame := notify_same q' none t'
      rw [hthreads] at hsame
      exact hsame
  next =>
    constructor
    · show 2 * (q.nTodo - vChecks.length) + ∑ t, (q.threads t).pending < _
      rw [stepsLeft]
      omega
    · exact fun t' => .inl rfl

theorem Accounts.step_prompt [DecidableEq T] (h : q.Accounts eval es)
    (hmaster : q.threads none ≠ .outside) {a : QueueAction W T} {q' : CCheckQueue W T}
    {e : QueueEvent W T} (hstep : q.step eval a = some (q', e))
    (hret : ∀ fRet, e ≠ .returned fRet) :
    q'.threads none ≠ .outside ∧
      (if q.Spurious a then 0 else 1) + q'.stepsLeft ≤ q.stepsLeft := by
  -- what the inner loop of `t` does after the clean-up to `ql`
  have release : ∀ {t : Option W} {ql : CCheckQueue W T}, some (ql.takeOrWait t) = some (q', e) →
      ql.threads none ≠ .outside →
      q'.threads none ≠ .outside ∧
        q'.stepsLeft + (ql.threads t).pending = ql.stepsLeft := by
    intro t ql heq hql
    have heq := Option.some.inj heq
    have hrel := takeOrWait_pending ql t (by rw [heq]; exact hret)
    rw [heq] at hrel
    obtain ⟨htodo, x, hx, hxo, hthreads⟩ := hrel
    constructor
    · rw [hthreads, update_apply]
      split
      · exact hxo
      · exact hql
    · have hsum := sum_pending_release (q := ql) (t := t) hx
      rw [stepsLeft, stepsLeft, htodo, hthreads]
      omega
  cases a with
  | add vChecks woken =>
    have hstep : q.add vChecks woken = some (q', e) := hstep
    unfold CCheckQueue.add at hstep
    split at hstep
    next hout => exact absurd hout hmaster
    next => cases hstep
  | enter t =>
    have hstep : q.enter eval t = some (q', e) := hstep
    rw [if_neg (show ¬ q.Spurious (.enter t) from fun hs => hs)]
    unfold enter at hstep
    split at hstep
    next ht =>
      obtain ⟨hm, hleft⟩ := release hstep hmaster
      refine ⟨hm, ?_⟩
      have hsame : (q.cleanUp eval t [] true).stepsLeft = q.stepsLeft := rfl
      have hone : ((q.cleanUp eval t [] true).threads t).pending = 1 := by
        show (q.threads t).pending = 1
        rw [ht]
        rfl
      omega
    next vChecks fOk ht =>
      have hle : vChecks.length ≤ q.nTodo := by
        have hmem := Finset.single_le_sum (f := fun t => (q.threads t).held.length)
          (fun _ _ => Nat.zero_le _) (mem_univ t)
        have hheld : (q.threads t).held.length = vChecks.length := by rw [ht]; rfl
        have htodo := h.counted.todo
        omega
      obtain ⟨hlt, hsame⟩ := cleanUp_pending eval t (h.busy t vChecks fOk ht) hle fOk
      have hmaster' : (q.cleanUp eval t vChecks fOk).threads none ≠ .outside := by
        intro ho
        have hs := hsame none
        rw [ho] at hs
        rcases hs with heq | ⟨b, b', -, hw⟩
        · exact hmaster heq
        · cases hw
      obtain ⟨hm, hleft⟩ := release hstep hmaster'
      exact ⟨hm, by omega⟩
    next => cases hstep
  | wake t =>
    have hstep : q.wake t = some (q', e) := hstep
    unfold wake at hstep
    split at hstep
    next b ht =>
      obtain ⟨hm, hleft⟩ := release hstep hmaster
      refine ⟨hm, ?_⟩
      have hsame : ({ q with nIdle := q.nIdle - 1 } : CCheckQueue W T).stepsLeft = q.stepsLeft :=
        rfl
      dsimp only at hleft
      cases b with
      | false =>
        rw [if_pos (show q.Spurious (.wake t) from ht)]
        omega
      | true =>
        have hone : (q.threads t).pending = 1 := by rw [ht]; rfl
        have hns : ¬ q.Spurious (.wake t) := by
          intro hs
          have hs : q.threads t = .waiting false := hs
          rw [ht] at hs
          cases hs
        rw [if_neg hns]
        omega
    next => cases hstep

theorem Accounts.run_prompt [DecidableEq T] (h : q.Accounts eval es)
    (hmaster : q.threads none ≠ .outside) {as : List (QueueAction W T)} {q' : CCheckQueue W T}
    {es' : List (QueueEvent W T)} (hrun : q.run eval as = some (q', es'))
    (hret : ∀ fRet, .returned fRet ∉ es') : q.promptSteps eval as ≤ q.stepsLeft := by
  induction as generalizing q es es' with
  | nil => exact Nat.zero_le _
  | cons a as ih =>
    rw [CCheckQueue.run, bind_eq_bind, bind_eq_some_iff] at hrun
    obtain ⟨⟨q1, e⟩, hstep, hrun⟩ := hrun
    rw [bind_eq_bind, bind_eq_some_iff] at hrun
    obtain ⟨⟨q2, es2⟩, hrest, heq⟩ := hrun
    cases heq
    have hone := h.step_prompt hmaster hstep fun fRet he =>
      hret fRet (he ▸ List.mem_cons_self ..)
    have hrest := ih (h.step hstep).1 hone.1 hrest fun fRet hmem =>
      hret fRet (List.mem_cons_of_mem _ hmem)
    rw [promptSteps, hstep]
    dsimp only
    omega

/-- Every schedule of the workers and the master from a new queue on: no check is
    lost or taken twice; `Wait` returns exactly the verdict of the checks added since
    it returned last, and leaves everything done and reset; and it does return, as
    there is always a step that is not a spurious wake-up, and only so many of these. -/
theorem wait_sound [DecidableEq T] (eval : T → Bool) (nBatchSize : Nat)
    (as : List (QueueAction W T)) (q : CCheckQueue W T) (es : List (QueueEvent W T))
    (hrun : ({ nBatchSize := nBatchSize } : CCheckQueue W T).run eval as = some (q, es)) :
    (allAdded es).Perm (q.queue ++ (allTaken es).map Prod.snd) ∧
      (∀ a q' fRet, q.step eval a = some (q', .returned fRet) →
        (fRet = true ↔ ∀ c ∈ addedSinceWait es, eval c = true) ∧
          (allAdded es).Perm ((allTaken es).map Prod.snd) ∧
          q'.queue = [] ∧ q'.nTodo = 0 ∧ q'.fAllOk = true ∧
          ∀ t vChecks fOk, q'.threads t ≠ .working vChecks fOk) ∧
      (q.threads none ≠ .outside →
        (∃ a, ¬ q.Spurious a ∧ (q.step eval a).isSome = true) ∧
          ∀ as' q' es', q.run eval as' = some (q', es') → (∀ fRet, .returned fRet ∉ es') →
            q.promptSteps eval as' ≤ q.stepsLeft) := by
  have h : q.Accounts eval es := (accounts_init eval nBatchSize).run hrun
  refine ⟨h.taken, ?_, ?_⟩
  · intro a q' fRet hstep
    have hr := (h.step hstep).2 fRet rfl
    exact ⟨hr.verdict, hr.taken, hr.queue, hr.todo, hr.allOk, hr.idle⟩
  · intro hmaster
    exact ⟨h.exists_prompt hmaster, fun as' q' es' hrun' hret => h.run_prompt hmaster hrun' hret⟩

/-- One worker, which sleeps when the checks come; it and the master take one each,
    and the master sleeps until the worker has reported the failure. -/
theorem wait_sound_failed_check : ∃ (q q' : CCheckQueue (Fin 1) Bool) (es : _),
    ({ nBatchSize := 4 } : CCheckQueue (Fin 1) Bool).run id
      [.enter (some 0), .add [false, true] none, .enter none, .wake (some 0), .enter none,
        .enter (some 0)] = some (q, es) ∧
      q.step id (.wake none) = some (q', .returned false) ∧ q'.nTodo = 0 ∧
      ¬ ∀ c ∈ addedSinceWait es, id c = true := by
  have h := wait_sound (W := Fin 1) id 4
    [.enter (some 0), .add [false, true] none, .enter none, .wake (some 0), .enter none,
      .enter (some 0)] _ _ rfl
  obtain ⟨hverdict, -, -, htodo, -⟩ := h.2.1 (.wake none) _ false rfl
  exact ⟨_, _, _, rfl, rfl, htodo, fun hall => Bool.noConfusion (hverdict.mpr hall)⟩

end CCheckQueue

end Rcoin
