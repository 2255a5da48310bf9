import ExtensionHost.Action.Script

namespace ExtensionHost

/-- A moment in the life of an action: a piece of work, and the action as it is when its turn
comes. -/
structure Moment where
  action : Action Callback
  work : Work

namespace Work

def callback? : Work → Option Callback
  | start c => some c
  | perform _ | answer _ => none

theorem callback?_performAll (calls : List ActionCall) :
    (performAll calls).filterMap callback? = [] := by
  simp [performAll, List.filterMap_map, callback?, Function.comp_def]

theorem callback?_startAll (callbacks : List Callback) :
    (startAll callbacks).filterMap callback? = callbacks := by
  simp [startAll, List.filterMap_map, callback?, Function.comp_def]

end Work

namespace Action

/-- What a piece of work makes of the action, and the work that it gives rise to. -/
def takeOn (a : Action Callback) : Work → Action Callback × List Work
  | .start c => (a, Work.performAll c.calls)
  | .perform (.resolve result) => ((a.resolve result).1, [])
  | .perform .terminate =>
    (a.terminate.1, Work.startAll a.terminate.2.1 ++ [.answer a.terminate.2.2])
  | .perform (.onTerminate label calls) => (a.onTerminate ⟨label, calls⟩, [])
  | .perform .isTerminated | .answer _ => (a, [])

theorem weight_takeOn (a : Action Callback) (w : Work) :
    (a.takeOn w).1.callbackWeight + Work.total (a.takeOn w).2 < a.callbackWeight + w.weight := by
  cases w with
  | start c =>
    simp only [takeOn, Work.total_performAll, Work.weight]
    omega
  | answer b => simp [takeOn, Work.total, Work.weight]
  | perform call =>
    cases call with
    | resolve result =>
      have hle := callbackWeight_resolve a result
      simp only [takeOn, Work.total, Work.weight, ActionCall.weight]
      omega
    | terminate =>
      have heq := callbackWeight_terminate a
      simp only [takeOn, Work.total_append, Work.total, Work.weight, ActionCall.weight]
      omega
    | isTerminated => simp [takeOn, Work.total, Work.weight, ActionCall.weight]
    | onTerminate label calls =>
      have hle := callbackWeight_onTerminate a ⟨label, calls⟩
      simp only [takeOn, Work.total, Work.weight, ActionCall.weight] at hle ⊢
      omega

/-- All moments of a run. Calls that callbacks make are among them, at any depth. -/
def moments (a : Action Callback) : List Work → List Moment
  | [] => []
  | w :: rest => ⟨a, w⟩ :: moments (a.takeOn w).1 ((a.takeOn w).2 ++ rest)
termination_by work => a.callbackWeight + Work.total work
decreasing_by
  have hlt := weight_takeOn a w
  simp only [Work.total_append, Work.total]
  omega

@[simp] theorem moments_nil (a : Action Callback) : a.moments [] = [] := by
  rw [moments]

@[simp] theorem moments_cons (a : Action Callback) (w : Work) (rest : List Work) :
    a.moments (w :: rest) = ⟨a, w⟩ :: (a.takeOn w).1.moments ((a.takeOn w).2 ++ rest) := by
  rw [moments]

end Action

namespace Moment

/-- What is seen at a moment. A termination answers later, when its callbacks are done. -/
def observation? (m : Moment) : Option Observation :=
  match m.work with
  | .start c => some (.started c.label)
  | .answer b => some (.answered b)
  | .perform (.resolve result) => some (.answered (m.action.resolve result).2)
  | .perform .terminate => none
  | .perform .isTerminated => some (.answered m.action.isTerminated)
  | .perform (.onTerminate _ _) => some (.answered true)

def settlement? (m : Moment) : Option Bool :=
  match m.work with
  | .perform (.resolve result) => some (m.action.resolve result).2
  | .answer b => some b
  | _ => none

def started? (m : Moment) : Option Callback := m.work.callback?

def added? (m : Moment) : Option Callback :=
  match m.work with
  | .perform (.onTerminate label calls) => some ⟨label, calls⟩
  | _ => none

end Moment

namespace Action

@[simp] theorem run_nil (a : Action Callback) : a.run [] = (a, []) := by
  rw [run]

theorem run_cons (a : Action Callback) (w : Work) (rest : List Work) :
    a.run (w :: rest) = (((a.takeOn w).1.run ((a.takeOn w).2 ++ rest)).1,
      (Moment.observation? ⟨a, w⟩).toList ++ ((a.takeOn w).1.run ((a.takeOn w).2 ++ rest)).2) := by
  cases w with
  | start | answer =>
    rw [run]
    rfl
  | perform call =>
    cases call with
    | terminate =>
      rw [run]
      simp [takeOn, Moment.observation?]
    | resolve | isTerminated | onTerminate =>
      rw [run]
      rfl

theorem run_eq (a : Action Callback) (work : List Work) :
    (a.run work).2 = (a.moments work).filterMap Moment.observation? := by
  induction a, work using moments.induct with
  | case1 a => simp
  | case2 a w rest ih =>
    rw [run_cons, moments_cons, ih, List.filterMap_cons]
    cases Moment.observation? ⟨a, w⟩ <;> rfl

theorem moments_append (a : Action Callback) (before after : List Work) :
    a.moments (before ++ after) = a.moments before ++ (a.run before).1.moments after := by
  induction a, before using moments.induct with
  | case1 a => simp
  | case2 a w rest ih =>
    rw [List.cons_append, moments_cons, ← List.append_assoc, ih, run_cons, moments_cons]
    rfl

theorem run_append (a : Action Callback) (before after : List Work) :
    (a.run (before ++ after)).1 = ((a.run before).1.run after).1 := by
  induction a, before using moments.induct with
  | case1 a => simp
  | case2 a w rest ih => rw [List.cons_append, run_cons, ← List.append_assoc, ih, run_cons]

end Action

namespace Moment

/-- Moments at which the action is pending: nobody tries to settle it, and no callback starts. -/
def Before (l : List Moment) : Prop :=
  ∀ m ∈ l, m.action.isPending ∧ m.settlement? = none ∧ m.started? = none

/-- Moments at which the action is settled as `x`: every attempt to settle it again is told so, and
nothing changes it any more. -/
def Past (x : Action Callback) (l : List Moment) : Prop :=
  ∀ m ∈ l, m.action = x ∧ (m.action.takeOn m.work).1 = x ∧ m.settlement? ≠ some true

end Moment

open Moment

namespace Action

variable {x : Action Callback} {w : Work} {work : List Work}

/-- A settled action stays as it is, and its callbacks are gone: nothing new starts. -/
theorem takeOn_settled (hx : x.isPending = false) (w : Work) :
    (x.takeOn w).1 = x ∧ (∀ w' ∈ (x.takeOn w).2, ∀ c, w' ≠ .start c) ∧
      .answer true ∉ (x.takeOn w).2 := by
  cases w with
  | start c => simp [takeOn, Work.performAll]
  | answer b => simp [takeOn]
  | perform call =>
    cases call with
    | resolve | onTerminate => simp [takeOn, resolve, onTerminate, hx]
    | terminate => simp [takeOn, terminate, hx, Work.startAll]
    | isTerminated => simp [takeOn]

theorem settlement?_settled (hx : x.isPending = false) (hw : w ≠ .answer true) :
    Moment.settlement? ⟨x, w⟩ ≠ some true := by
  cases w with
  | start c => simp [settlement?]
  | answer b => simpa [settlement?] using hw
  | perform call => cases call <;> simp [settlement?, resolve, hx]

theorem run_settled (hx : x.isPending = false) (work : List Work) : (x.run work).1 = x := by
  induction x, work using moments.induct with
  | case1 x => simp
  | case2 x w rest ih =>
    rw [run_cons]
    rw [(takeOn_settled hx w).1] at ih ⊢
    exact ih hx

theorem past_moments (hx : x.isPending = false) (hw : .answer true ∉ work) :
    Past x (x.moments work) := by
  induction x, work using moments.induct with
  | case1 x => simp [Past]
  | case2 x w rest ih =>
    obtain ⟨hsame, -, hnew⟩ := takeOn_settled hx w
    obtain ⟨hne, hrest⟩ := not_or.1 (mt List.mem_cons.2 hw)
    rw [hsame] at ih
    rw [moments_cons, hsame]
    intro m hm
    rcases List.mem_cons.1 hm with rfl | hm
    · exact ⟨rfl, hsame, settlement?_settled hx (Ne.symm hne)⟩
    · exact ih hx (by simp [hnew, hrest]) m hm

theorem started_moments (hx : x.isPending = false) (work : List Work) :
    (x.moments work).filterMap started? = work.filterMap Work.callback? := by
  induction x, work using moments.induct with
  | case1 x => simp
  | case2 x w rest ih =>
    obtain ⟨hsame, hnew, -⟩ := takeOn_settled hx w
    have hnone : (x.takeOn w).2.filterMap Work.callback? = [] := by
      refine List.filterMap_eq_nil_iff.2 fun w' hw' => ?_
      have hne := hnew w' hw'
      cases w' with
      | start c => exact (hne c rfl).elim
      | perform | answer => rfl
    rw [hsame] at ih
    rw [moments_cons, hsame, List.filterMap_cons, List.filterMap_cons, ih hx,
      List.filterMap_append, hnone]
    cases w <;> rfl

end Action

/-- How an action fares. `ms` are the moments, `final` is the action at the end. Either nobody tries
to settle it. Or somebody resolves it, and that is its state and its result for good: all further
attempts fail, and no callback ever starts. Or somebody terminates it. Then it is terminated at
once, the callbacks that have been added before start, in that order, and the attempt succeeds when
they are done. What they try themselves fails, and callbacks that are added now never start. -/
inductive Course (ms : List Moment) (final : Action Callback) : Prop
  | pending (hbefore : Before ms) (hfinal : final = ⟨.pending, ms.filterMap added?⟩)
  | resolved {before after : List Moment} {result : Option Json}
      (hms : ms = before ++
        ⟨⟨.pending, before.filterMap added?⟩, .perform (.resolve result)⟩ :: after)
      (hbefore : Before before) (hfinal : final = ⟨.resolved result, []⟩)
      (hafter : Past final after) (hquiet : after.filterMap started? = [])
  | terminated {before ran after : List Moment}
      (hms : ms = before ++ ⟨⟨.pending, before.filterMap added?⟩, .perform .terminate⟩ ::
        (ran ++ ⟨final, .answer true⟩ :: after))
      (hbefore : Before before) (hfinal : final = ⟨.terminated, []⟩) (hran : Past final ran)
      (hstarted : ran.filterMap started? = before.filterMap added?) (hafter : Past final after)
      (hquiet : after.filterMap started? = [])

namespace Action

theorem past_performAll {x : Action Callback} (hx : x.isPending = false) (calls : List ActionCall) :
    Past x (x.moments (Work.performAll calls)) ∧
      (x.moments (Work.performAll calls)).filterMap started? = [] :=
  ⟨past_moments hx (by simp [Work.performAll]),
    (started_moments hx _).trans (Work.callback?_performAll calls)⟩

end Action

def ActionCall.settles : ActionCall → Bool
  | resolve _ | terminate => true
  | isTerminated | onTerminate _ _ => false

theorem exists_first_settling (calls : List ActionCall) :
    ∃ before after, calls = before ++ after ∧ (∀ c ∈ before, c.settles = false) ∧
      ∀ c rest, after = c :: rest → c.settles = true := by
  induction calls with
  | nil => exact ⟨[], [], rfl, by simp, by simp⟩
  | cons c rest ih =>
    cases hc : c.settles with
    | true =>
      refine ⟨[], c :: rest, rfl, by simp, fun c' rest' heq => ?_⟩
      cases heq
      exact hc
    | false =>
      obtain ⟨before, after, rfl, hbefore, hafter⟩ := ih
      exact ⟨c :: before, after, rfl, by simpa [hc] using hbefore, hafter⟩

namespace Action

variable {a : Action Callback}

theorem before_performAll {calls : List ActionCall} (hcalls : ∀ c ∈ calls, c.settles = false)
    (ha : a.state = .pending) :
    Before (a.moments (Work.performAll calls)) ∧
      (a.run (Work.performAll calls)).1 =
        ⟨.pending, a.callbacks ++ (a.moments (Work.performAll calls)).filterMap added?⟩ := by
  induction calls generalizing a with
  | nil => exact ⟨by simp [Before, Work.performAll], by simp [Work.performAll, ← ha]⟩
  | cons c rest ih =>
    obtain ⟨hc, hrest⟩ := List.forall_mem_cons.1 hcalls
    have hp : a.isPending = true := by simp [isPending, ha]
    have hwork : Work.performAll (c :: rest) = .perform c :: Work.performAll rest := rfl
    rw [hwork, moments_cons, run_cons]
    cases c with
    | resolve | terminate => cases hc
    | isTerminated =>
      obtain ⟨hbefore, hrun⟩ := ih hrest ha
      refine ⟨fun m hm => ?_, by simpa [takeOn, added?, List.filterMap_cons] using hrun⟩
      rcases List.mem_cons.1 hm with rfl | hm
      · exact ⟨hp, rfl, rfl⟩
      · exact hbefore m hm
    | onTerminate label calls =>
      have hstate : (a.onTerminate ⟨label, calls⟩).state = .pending := by simp [onTerminate, hp, ha]
      obtain ⟨hbefore, hrun⟩ := ih hrest hstate
      refine ⟨fun m hm => ?_, ?_⟩
      · rcases List.mem_cons.1 hm with rfl | hm
        · exact ⟨hp, rfl, rfl⟩
        · exact hbefore m hm
      · simpa [takeOn, added?, onTerminate, hp] using hrun

section Settling

variable {before : List Moment} (hbefore : Before before) (after : List ActionCall)

include hbefore

theorem course_resolved (result : Option Json) :
    Course (before ++ (⟨.pending, before.filterMap added?⟩ : Action Callback).moments
        (.perform (.resolve result) :: Work.performAll after))
      ((⟨.pending, before.filterMap added?⟩ : Action Callback).run
        (.perform (.resolve result) :: Work.performAll after)).1 := by
  have hx : (⟨.resolved result, []⟩ : Action Callback).isPending = false := by simp [isPending]
  obtain ⟨hpast, hquiet⟩ := past_performAll hx after
  have hfinal := run_settled hx (Work.performAll after)
  rw [moments_cons, run_cons]
  exact .resolved rfl hbefore hfinal (hfinal.symm ▸ hpast) hquiet

/-- What comes after the call that terminates the action: first the callbacks, then the answer, then
what else there is to do. -/
theorem course_terminated :
    Course (before ++ (⟨.pending, before.filterMap added?⟩ : Action Callback).moments
        (.perform .terminate :: Work.performAll after))
      ((⟨.pending, before.filterMap added?⟩ : Action Callback).run
        (.perform .terminate :: Work.performAll after)).1 := by
  have hx : (⟨.terminated, []⟩ : Action Callback).isPending = false := by simp [isPending]
  obtain ⟨hpast, hquiet⟩ := past_performAll hx after
  have htake : (⟨.pending, before.filterMap added?⟩ : Action Callback).takeOn
      (.perform .terminate) =
      (⟨.terminated, []⟩, Work.startAll (before.filterMap added?) ++ [.answer true]) := rfl
  rw [moments_cons, run_cons, htake, List.append_assoc, List.singleton_append, moments_append,
    run_settled hx, run_settled hx, moments_cons]
  have hdue : .answer true ∉ Work.startAll (before.filterMap added?) := by simp [Work.startAll]
  have hran := past_moments hx hdue
  have hstarted := (started_moments hx _).trans (Work.callback?_startAll (before.filterMap added?))
  exact .terminated rfl hbefore rfl hran hstarted hpast hquiet

end Settling

/-- Whatever calls are made on a new action, and whatever calls the callbacks make on it when they
run, the action fares in one of three ways, and what is seen of it is what is seen at the moments of
that. -/
theorem settled_once (calls : List ActionCall) :
    Course (fresh.moments (Work.performAll calls)) (fresh.run (Work.performAll calls)).1 ∧
      (fresh.run (Work.performAll calls)).2 =
        (fresh.moments (Work.performAll calls)).filterMap observation? := by
  refine ⟨?_, run_eq ..⟩
  obtain ⟨first, rest, rfl, hfirst, hrest⟩ := exists_first_settling calls
  obtain ⟨hbefore, hrun⟩ := before_performAll (a := fresh) hfirst rfl
  rw [show (fresh : Action Callback).callbacks = [] from rfl, List.nil_append] at hrun
  have hwork : Work.performAll (first ++ rest) = Work.performAll first ++ Work.performAll rest :=
    List.map_append
  rw [hwork, moments_append, run_append, hrun]
  cases rest with
  | nil =>
    refine .pending ?_ ?_
    · simpa [Work.performAll] using hbefore
    · simp [Work.performAll]
  | cons c after =>
    have hc := hrest c after rfl
    cases c with
    | isTerminated | onTerminate => cases hc
    | resolve result => exact course_resolved hbefore after result
    | terminate => exact course_terminated hbefore after

/-- A callback that tries to settle the action again and passes it another callback. -/
example : (fresh.run (Work.performAll
    [.onTerminate "undo" [.isTerminated, .resolve none, .terminate, .onTerminate "late" []],
      .terminate, .terminate])).2 =
    [.answered true, .started "undo", .answered true, .answered false, .answered false,
      .answered true, .answered true, .answered false] := by
  decide +kernel

end Action

end ExtensionHost
