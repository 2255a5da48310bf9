import ExtensionHost.Client.Basic

namespace ExtensionHost

def Notice.event? (uri : String) (n : Notice) : Option Event :=
  n.handler.map fun handler => ⟨uri, handler, n.payload, true, none⟩

namespace Client

/-- Hands events to the bound document, or holds them if there is none. -/
def deliver (c : Client) (bound : Option DocumentId) (events : List Event) :
    Client × List Effect :=
  match bound with
  | some d => (c, events.map fun e => .call d (.handle e))
  | none =>
    ({ c with held := c.held ++ events }, events.map fun e => .log (.holding e.uri e.name))

theorem deliver_fst (c : Client) (bound : Option DocumentId) (events : List Event) :
    (c.deliver bound events).1 =
      { c with held := if bound.isSome then c.held else c.held ++ events } := by
  cases bound <;> rfl

@[simp] theorem deliver_nil (c : Client) (bound : Option DocumentId) :
    c.deliver bound [] = (c, []) := by
  cases bound <;> simp [deliver]

theorem deliver_append (c : Client) (bound : Option DocumentId) (a b : List Event) :
    c.deliver bound (a ++ b) =
      (((c.deliver bound a).1.deliver bound b).1,
        (c.deliver bound a).2 ++ ((c.deliver bound a).1.deliver bound b).2) := by
  cases bound <;> simp [deliver]

def eventsOf (c : Client) (notices : List Notice) : List Event :=
  notices.filterMap (·.event? c.uri)

/-- Delivers what notices have to say; those without a handler are dropped. -/
def announce (c : Client) (bound : Option DocumentId) (notices : List Notice) :
    Client × List Effect :=
  let dropped := notices.filter (·.handler.isNone)
  let (c, effects) := c.deliver bound (c.eventsOf notices)
  (c, dropped.map (fun _ => .log .unheardChange) ++ effects)

def announceAll (c : Client) (bound : Option DocumentId) :
    List (List Notice) → Client × List Effect
  | [] => (c, [])
  | notices :: rest =>
    let (c, first) := c.announce bound notices
    let (c, more) := announceAll c bound rest
    (c, first ++ more)

@[simp] theorem announce_fst (c : Client) (bound : Option DocumentId) (notices : List Notice) :
    (c.announce bound notices).1 = (c.deliver bound (c.eventsOf notices)).1 := rfl

@[simp] theorem announce_uri (c : Client) (bound : Option DocumentId) (notices : List Notice) :
    (c.announce bound notices).1.uri = c.uri := by
  rw [announce_fst, deliver_fst]
  rfl

theorem eventsOf_congr {a b : Client} (h : a.uri = b.uri) : a.eventsOf = b.eventsOf := by
  funext notices
  rw [eventsOf, h, eventsOf]

theorem announceAll_fst (c : Client) (bound : Option DocumentId) (l : List (List Notice)) :
    (c.announceAll bound l).1 = (c.deliver bound (l.flatMap c.eventsOf)).1 := by
  induction l generalizing c with
  | nil => simp [announceAll]
  | cons notices rest ih =>
    have hrest := ih (c.announce bound notices).1
    rw [eventsOf_congr (c.announce_uri bound notices)] at hrest
    rw [List.flatMap_cons, deliver_append]
    exact hrest

def reportFeeds (c : Client) (bound : Option DocumentId) (due : Feed → Bool)
    (notices : Feed → List Notice) : Client × List Effect :=
  let dueFeeds := c.feeds.values.filter due
  (c.withFeeds (c.feeds.map fun _ f => if due f then f.reported else f)).announceAll bound
    (dueFeeds.map notices)

/-- Binds a document: held events are replayed to it, then all contents of live data with inbound
changes are reported. -/
def bind (c : Client) (d : DocumentId) : Client × List Effect :=
  let held := c.held
  let replaying := if held = [] then [] else [Effect.log (.replaying c.uri held.length)]
  let (c, replayed) := { c with document := some d, held := [] }.deliver (some d) held
  let (c, reported) := c.reportFeeds (some d) (·.pending) Feed.snapshotNotices
  (c, replaying ++ replayed ++ reported)

def flush (c : Client) (bound : Option DocumentId) (name : String) :
    Client × List Effect × Except ClientFault Unit :=
  match c.feeds.get? name with
  | none => (c, [.log (.unknownFlush c.uri name)], .error (.unknownLiveData name))
  | some feed =>
    let (c, effects) := (c.withFeeds (c.feeds.insert name feed.reported)).announce bound
      feed.changeNotices
    (c, effects, .ok ())

def hasNews (f : Feed) : Bool := f.replica.hasChanges || f.pending

def flushAll (c : Client) (bound : Option DocumentId) : Client × List Effect × Nat :=
  let (c', effects) := c.reportFeeds bound hasNews Feed.changeNotices
  (c', effects, (c.feeds.values.filter hasNews).length)

end Client

end ExtensionHost
