import ExtensionHost.Action.Basic

namespace ExtensionHost

/-- A call on an action. The callbacks of an action may make further calls on it. -/
inductive ActionCall where
  | resolve (result : Option Json)
  | terminate
  | isTerminated
  | onTerminate (label : String) (calls : List ActionCall)

structure Callback where
  label : String
  calls : List ActionCall

/-- What an observer sees of a call: callbacks that start, and the answers that their calls
get. -/
inductive Observation where
  | started (label : String)
  | answered (answer : Bool)
  deriving DecidableEq

namespace ActionCall

mutual
/-- A bound on the work that a call gives rise to. -/
def weight : ActionCall → Nat
  | onTerminate _ calls => 3 + weights calls
  | _ => 2

def weights : List ActionCall → Nat
  | [] => 0
  | call :: rest => weight call + weights rest
end

end ActionCall

/-- Work that is due while a call runs. -/
inductive Work where
  | start (callback : Callback)
  | perform (call : ActionCall)
  | answer (answer : Bool)

namespace Work

def weight : Work → Nat
  | start c => 1 + ActionCall.weights c.calls
  | perform call => call.weight
  | answer _ => 1

def total : List Work → Nat
  | [] => 0
  | w :: rest => weight w + total rest

def performAll (calls : List ActionCall) : List Work := calls.map perform

def startAll (callbacks : List Callback) : List Work := callbacks.map start

theorem total_append (a b : List Work) : total (a ++ b) = total a + total b := by
  induction a with
  | nil => simp [total]
  | cons w rest ih => simp only [List.cons_append, total, ih]; omega

theorem total_performAll (calls : List ActionCall) :
    total (performAll calls) = ActionCall.weights calls := by
  induction calls with
  | nil => simp [performAll, total, ActionCall.weights]
  | cons c rest ih => simp_all [performAll, total, ActionCall.weights, weight]

end Work

namespace Action

def callbackWeight (a : Action Callback) : Nat := Work.total (Work.startAll a.callbacks)

theorem callbackWeight_resolve (a : Action Callback) (result : Option Json) :
    (a.resolve result).1.callbackWeight ≤ a.callbackWeight := by
  unfold resolve
  split <;> simp [callbackWeight, Work.startAll, Work.total]

theorem callbackWeight_terminate (a : Action Callback) :
    a.terminate.1.callbackWeight + Work.total (Work.startAll a.terminate.2.1) =
      a.callbackWeight := by
  unfold terminate
  split <;> simp [callbackWeight, Work.startAll, Work.total]

theorem callbackWeight_onTerminate (a : Action Callback) (c : Callback) :
    (a.onTerminate c).callbackWeight ≤ a.callbackWeight + (1 + ActionCall.weights c.calls) := by
  unfold onTerminate
  split <;> simp [callbackWeight, Work.startAll, Work.total, Work.total_append, Work.weight]

/-- Does all work that is due, in order, including what it gives rise to: the calls of a callback
come directly after its start, and a termination answers when its callbacks are done. -/
def run (a : Action Callback) (work : List Work) : Action Callback × List Observation :=
  match work with
  | [] => (a, [])
  | .answer b :: rest =>
    let (final, seen) := run a rest
    (final, .answered b :: seen)
  | .start c :: rest =>
    let (final, seen) := run a (Work.performAll c.calls ++ rest)
    (final, .started c.label :: seen)
  | .perform (.resolve result) :: rest =>
    let (final, seen) := run (a.resolve result).1 rest
    (final, .answered (a.resolve result).2 :: seen)
  | .perform .terminate :: rest =>
    run a.terminate.1 (Work.startAll a.terminate.2.1 ++ .answer a.terminate.2.2 :: rest)
  | .perform .isTerminated :: rest =>
    let (final, seen) := run a rest
    (final, .answered a.isTerminated :: seen)
  | .perform (.onTerminate label calls) :: rest =>
    let (final, seen) := run (a.onTerminate ⟨label, calls⟩) rest
    (final, .answered true :: seen)
termination_by a.callbackWeight + Work.total work
decreasing_by
  · simp only [Work.total, Work.weight]; omega
  · simp only [Work.total_append, Work.total_performAll, Work.total, Work.weight]; omega
  · have := callbackWeight_resolve a result
    simp only [Work.total, Work.weight, ActionCall.weight]; omega
  · have := callbackWeight_terminate a
    simp only [Work.total_append, Work.total, Work.weight, ActionCall.weight]; omega
  · simp only [Work.total, Work.weight, ActionCall.weight]; omega
  · have := callbackWeight_onTerminate a ⟨label, calls⟩
    simp only [Work.total, Work.weight, ActionCall.weight] at *; omega

/-- Makes one call; its own answer is the last observation. -/
def call (a : Action Callback) (c : ActionCall) : Action Callback × List Observation :=
  a.run [.perform c]

end Action

end ExtensionHost
