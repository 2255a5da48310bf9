import Mathlib.Data.List.Basic
import Mathlib.Data.List.Nodup
import ExtensionHost.Directory.Basic
import ExtensionHost.Proofs.Schema.LiveData

namespace ExtensionHost

namespace SortedMap

variable {κ ν : Type} [Ord κ] [Std.TransOrd κ] [Std.LawfulEqOrd κ]

theorem get?_ofList_eq_some_iff {l : List (κ × ν)} (hl : (l.map (·.1)).Nodup) {a : κ} {v : ν} :
    (ofList l).get? a = some v ↔ (a, v) ∈ l := by
  refine ⟨mem_of_get?_ofList, fun h => ?_⟩
  induction l with
  | nil => cases h
  | cons e rest ih =>
    have hkeys := List.nodup_cons.1 hl
    rw [get?_ofList_cons]
    rcases List.mem_cons.1 h with rfl | hrest
    · have hnone : (ofList rest).get? a = none := by
        refine Option.eq_none_iff_forall_ne_some.2 fun w hw => hkeys.1 ?_
        exact List.mem_map.2 ⟨(a, w), mem_of_get?_ofList hw, rfl⟩
      simp [hnone]
    · rw [ih hkeys.2 hrest, Option.some_or]

end SortedMap

theorem append_cons_inj {α : Type} {c : α} {l l' r r' : List α} (hl : c ∉ l) (hl' : c ∉ l')
    (h : l ++ c :: r = l' ++ c :: r') : l = l' ∧ r = r' := by
  rcases List.append_eq_append_iff.1 h with ⟨more, rfl, hmore⟩ | ⟨more, rfl, hmore⟩
  · cases more with
    | nil => simpa using hmore
    | cons x rest =>
      obtain ⟨rfl, -⟩ := List.cons.inj hmore
      simp at hl'
  · cases more with
    | nil => simpa [eq_comm] using hmore
    | cons x rest =>
      obtain ⟨rfl, -⟩ := List.cons.inj hmore
      simp at hl

section Search

variable {α β ν : Type}

theorem findSome?_of_unique {f : α → Option β} {l : List α} {a : α} {b : β} (ha : a ∈ l)
    (hb : f a = some b) (hunique : ∀ a' ∈ l, ∀ b', f a' = some b' → b' = b) :
    l.findSome? f = some b := by
  cases h : l.findSome? f with
  | none => simp [List.findSome?_eq_none_iff.1 h a ha] at hb
  | some b' =>
    obtain ⟨a', ha', hb'⟩ := List.exists_of_findSome?_eq_some h
    rw [hunique a' ha' b' hb']

theorem foldl_or (look : β → Option ν) {step : β → α → β} {answer : α → Option ν}
    (hstep : ∀ b a, look (step b a) = (look b).or (answer a)) (l : List α) (b : β) :
    look (l.foldl step b) = (look b).or (l.findSome? answer) := by
  induction l generalizing b with
  | nil => simp
  | cons a rest ih =>
    rw [List.foldl_cons, ih, hstep, Option.or_assoc, List.findSome?_cons]
    cases answer a <;> rfl

end Search

def Client.Serves (c : Client) (uri : String) : Prop := c.connection?.isSome ∧ c.uri = uri

namespace Directory

theorem qualify_inj {space space' name name' : String} (hs : ':' ∉ space.toList)
    (hs' : ':' ∉ space'.toList) (h : qualify space name = qualify space' name') :
    space = space' ∧ name = name' := by
  have hqualify : ∀ space name : String,
      (qualify space name).toList = space.toList ++ ':' :: name.toList := by
    intro space name
    simp [qualify, toString]
  obtain ⟨hspace, hname⟩ := append_cons_inj hs hs' (by rw [← hqualify, h, hqualify])
  exact ⟨String.toList_inj.1 hspace, String.toList_inj.1 hname⟩

section Offered

variable {ν : Type}

/-- The first definition that schemas offer under a qualified name, by way of the namespaces that
they are requested for. -/
def firstOffered (requests : List ExtensionRequest) (schemas : List Schema) (nameOf : ν → String)
    (definitions : Schema → List ν) (q : String) : Option ν :=
  schemas.findSome? fun s => (requests.filter (·.uri == s.uri)).findSome? fun r =>
    (definitions s).find? fun d => qualify r.space (nameOf d) == q

theorem get?_enter (space : String) (nameOf : ν → String) (entries : SortedMap String ν)
    (definitions : List ν) (q : String) :
    (enter space nameOf entries definitions).get? q =
      (entries.get? q).or (definitions.find? fun d => qualify space (nameOf d) == q) := by
  rw [List.find?_eq_findSome?_guard]
  refine foldl_or (fun m => m.get? q) (fun m d => ?_) definitions entries
  by_cases hq : qualify space (nameOf d) = q
  · simp [Option.guard, hq]
  · simp [Option.guard, hq, Ne.symm hq]

variable {requests : List ExtensionRequest} {schemas : List Schema} {nameOf : ν → String}
  {definitions : Schema → List ν} {q : String} {definition : ν}

theorem find?_qualify (space name : String) (nameOf : ν → String) (l : List ν) :
    (l.find? fun d => qualify space (nameOf d) == qualify space name) =
      l.find? (nameOf · == name) := by
  congr 1
  funext d
  simp [qualify, toString]

/-- Namespaces without colons, all of them different, and schemas of different URIs leave one way
only in which a definition can come to be offered under a name. -/
theorem firstOffered_eq_some_iff (hspaces : (requests.map (·.space)).Nodup)
    (hcolons : ∀ r ∈ requests, ':' ∉ r.space.toList) (huris : (schemas.map (·.uri)).Nodup) :
    firstOffered requests schemas nameOf definitions q = some definition ↔
      ∃ r ∈ requests, ∃ s ∈ schemas, s.uri = r.uri ∧ ∃ name, q = qualify r.space name ∧
        (definitions s).find? (nameOf · == name) = some definition := by
  constructor
  · intro h
    obtain ⟨s, hs, hfound⟩ := List.exists_of_findSome?_eq_some h
    obtain ⟨r, hr, hfound⟩ := List.exists_of_findSome?_eq_some hfound
    obtain ⟨hr, huri⟩ := List.mem_filter.1 hr
    have hq : qualify r.space (nameOf definition) = q := by simpa using List.find?_some hfound
    rw [← hq, find?_qualify] at hfound
    exact ⟨r, hr, s, hs, (eq_of_beq huri).symm, _, hq.symm, hfound⟩
  · rintro ⟨r, hr, s, hs, huri, name, rfl, hfound⟩
    -- Whatever else is offered under the name comes by the same request from the same schema.
    have hsame : ∀ s' ∈ schemas, ∀ r' ∈ requests.filter (·.uri == s'.uri), ∀ other,
        ((definitions s').find? fun d => qualify r'.space (nameOf d) == qualify r.space name) =
          some other → other = definition := by
      intro s' hs' r' hr' other hother
      obtain ⟨hr', huri'⟩ := List.mem_filter.1 hr'
      have hname : qualify r'.space (nameOf other) = qualify r.space name := by
        simpa using List.find?_some hother
      have hspace := (qualify_inj (hcolons r' hr') (hcolons r hr) hname).1
      obtain rfl := List.inj_on_of_nodup_map hspaces hr' hr hspace
      have huri'' : s'.uri = s.uri := by rw [huri, eq_of_beq huri']
      obtain rfl := List.inj_on_of_nodup_map huris hs' hs huri''
      rw [find?_qualify, hfound] at hother
      exact (Option.some.inj hother).symm
    refine findSome?_of_unique hs (findSome?_of_unique (List.mem_filter.2 ⟨hr, ?_⟩) ?_ ?_) ?_
    · exact beq_iff_eq.2 huri.symm
    · rw [find?_qualify, hfound]
    · exact hsame s hs
    · intro s' hs' other hother
      obtain ⟨r', hr', hother⟩ := List.exists_of_findSome?_eq_some hother
      exact hsame s' hs' r' hr' other hother

end Offered

def schemasOf (clients : List Client) : List Schema :=
  clients.filterMap fun c => c.connection?.map (·.schema)

theorem command?_build (requests : List ExtensionRequest) (clients : List Client) (q : String) :
    (build requests clients).command? q =
      firstOffered requests (schemasOf clients) CommandDefinition.name Schema.commands q := by
  refine foldl_or (fun d : Directory => d.commands.get? q) (fun d s => ?_) (schemasOf clients) empty
  exact foldl_or (fun d : Directory => d.commands.get? q) (fun d r =>
    get?_enter r.space CommandDefinition.name d.commands s.commands q) _ d

theorem handler?_build (requests : List ExtensionRequest) (clients : List Client) (q : String) :
    (build requests clients).handler? q =
      firstOffered requests (schemasOf clients) HandlerDefinition.name handlersOf q := by
  refine foldl_or (fun d : Directory => d.handlers.get? q) (fun d s => ?_) (schemasOf clients) empty
  exact foldl_or (fun d : Directory => d.handlers.get? q) (fun d r =>
    get?_enter r.space HandlerDefinition.name d.handlers (handlersOf s) q) _ d

variable {requests requests' : List ExtensionRequest} {clients clients' : List Client}

theorem mem_schemasOf {s : Schema} :
    s ∈ schemasOf clients ↔ ∃ c ∈ clients, c.connection?.isSome ∧ c.schema = s := by
  simp only [schemasOf, List.mem_filterMap]
  refine exists_congr fun c => and_congr_right fun _ => ?_
  cases hconn : c.connection? <;> simp [Client.schema, hconn]

def urisOf (clients : List Client) : List String :=
  (clients.filter (·.connection?.isSome)).map (·.uri)

theorem map_uri_schemasOf (clients : List Client) :
    (schemasOf clients).map (·.uri) = urisOf clients := by
  induction clients with
  | nil => rfl
  | cons c rest ih =>
    cases hconn : c.connection? with
    | none => simpa [schemasOf, urisOf, hconn] using ih
    | some conn => simpa [schemasOf, urisOf, hconn, Client.uri, Client.schema] using ih

/-- What a document can look up, in terms of what it has requested and who is registered. -/
structure Answers (requests : List ExtensionRequest) (clients : List Client) (d : Directory) :
    Prop where
  command : ∀ q definition, d.command? q = some definition ↔
    ∃ r ∈ requests, ∃ c ∈ clients, c.Serves r.uri ∧ ∃ name, q = r.space ++ ":" ++ name ∧
      c.schema.commands.find? (·.name == name) = some definition
  handler : ∀ q definition, d.handler? q = some definition ↔
    ∃ r ∈ requests, ∃ c ∈ clients, c.Serves r.uri ∧ ∃ name, q = r.space ++ ":" ++ name ∧
      (c.schema.eventHandlers ++ c.schema.components.flatMap (·.eventHandlers.values)).find?
        (·.name == name) = some definition
  spaces : ∀ space, d.environment.contains space ↔ ∃ r ∈ requests, r.space = space
  present : ∀ r ∈ requests, ∀ c ∈ clients, c.Serves r.uri →
    d.environment.get? r.space = some c.environment
  absent : ∀ r ∈ requests, (∀ c ∈ clients, ¬ c.Serves r.uri) →
    d.environment.get? r.space = some (.bool false)

theorem Answers.of_perm {d : Directory} (h : Answers requests' clients' d)
    (hrequests : requests'.Perm requests) (hclients : clients'.Perm clients) :
    Answers requests clients d where
  command q definition := by
    simpa only [hrequests.mem_iff, hclients.mem_iff] using h.command q definition
  handler q definition := by
    simpa only [hrequests.mem_iff, hclients.mem_iff] using h.handler q definition
  spaces space := by
    simpa only [hrequests.mem_iff] using h.spaces space
  present r hr c hc := h.present r (hrequests.mem_iff.2 hr) c (hclients.mem_iff.2 hc)
  absent r hr hnone :=
    h.absent r (hrequests.mem_iff.2 hr) fun c hc => hnone c (hclients.mem_iff.1 hc)

theorem Answers.unique {d d' : Directory} (h : Answers requests clients d)
    (h' : Answers requests clients d') :
    d.command? = d'.command? ∧ d.handler? = d'.handler? ∧ d.environment = d'.environment := by
  refine ⟨?_, ?_, SortedMap.eq_of_get? fun space => ?_⟩
  · funext q
    exact Option.ext fun definition => (h.command q definition).trans (h'.command q definition).symm
  · funext q
    exact Option.ext fun definition => (h.handler q definition).trans (h'.handler q definition).symm
  · by_cases hspace : ∃ r ∈ requests, r.space = space
    · obtain ⟨r, hr, rfl⟩ := hspace
      by_cases hserved : ∃ c ∈ clients, c.Serves r.uri
      · obtain ⟨c, hc, hs⟩ := hserved
        rw [h.present r hr c hc hs, h'.present r hr c hc hs]
      · have hnone : ∀ c ∈ clients, ¬ c.Serves r.uri := fun c hc hs => hserved ⟨c, hc, hs⟩
        rw [h.absent r hr hnone, h'.absent r hr hnone]
    · have hnone := mt (h.spaces space).1 hspace
      have hnone' := mt (h'.spaces space).1 hspace
      simp only [SortedMap.contains, Option.not_isSome_iff_eq_none] at hnone hnone'
      rw [hnone, hnone']

theorem exists_schemasOf {uri : String} {p : Schema → Prop} :
    (∃ s ∈ schemasOf clients, s.uri = uri ∧ p s) ↔ ∃ c ∈ clients, c.Serves uri ∧ p c.schema := by
  constructor
  · rintro ⟨s, hs, huri, hp⟩
    obtain ⟨c, hc, hregistered, rfl⟩ := mem_schemasOf.1 hs
    exact ⟨c, hc, ⟨hregistered, huri⟩, hp⟩
  · rintro ⟨c, hc, ⟨hregistered, huri⟩, hp⟩
    exact ⟨c.schema, mem_schemasOf.2 ⟨c, hc, hregistered, rfl⟩, huri, hp⟩

theorem environmentFor_of_mem {schemas : List Schema} (huris : (schemas.map (·.uri)).Nodup)
    {s : Schema} (hs : s ∈ schemas) : environmentFor schemas s.uri = s.environment.toJson := by
  unfold environmentFor
  split
  · rename_i s' hfound
    have hs' := List.mem_reverse.1 (List.mem_of_find?_eq_some hfound)
    have huri : s'.uri = s.uri := by simpa using List.find?_some hfound
    rw [List.inj_on_of_nodup_map huris hs' hs huri]
  · rename_i hnone
    simpa using List.find?_eq_none.1 hnone s (List.mem_reverse.2 hs)

theorem environmentFor_of_absent {schemas : List Schema} {uri : String}
    (hnone : ∀ s ∈ schemas, s.uri ≠ uri) : environmentFor schemas uri = .bool false := by
  have hfound : schemas.reverse.find? (·.uri == uri) = none := by simpa using hnone
  rw [environmentFor, hfound]

theorem answers_build (hspaces : (requests.map (·.space)).Nodup)
    (hcolons : ∀ r ∈ requests, ':' ∉ r.space.toList) (huris : (urisOf clients).Nodup) :
    Answers requests clients (build requests clients) := by
  rw [← map_uri_schemasOf] at huris
  have hkeys : ((requests.map fun r => (r.space, environmentFor (schemasOf clients) r.uri)).map
      (·.1)).Nodup := by
    rw [List.map_map]
    exact hspaces
  have henvironment : ∀ r ∈ requests, (build requests clients).environment.get? r.space =
      some (environmentFor (schemasOf clients) r.uri) := fun r hr =>
    (SortedMap.get?_ofList_eq_some_iff hkeys).2 (List.mem_map.2 ⟨r, hr, rfl⟩)
  constructor
  · intro q definition
    rw [command?_build, firstOffered_eq_some_iff hspaces hcolons huris]
    simp only [exists_schemasOf]
    rfl
  · intro q definition
    rw [handler?_build, firstOffered_eq_some_iff hspaces hcolons huris]
    simp only [exists_schemasOf]
    rfl
  · intro space
    constructor
    · intro h
      obtain ⟨v, hv⟩ := Option.isSome_iff_exists.1 h
      obtain ⟨r, hr, he⟩ := List.mem_map.1 ((SortedMap.get?_ofList_eq_some_iff hkeys).1 hv)
      exact ⟨r, hr, congrArg Prod.fst he⟩
    · rintro ⟨r, hr, rfl⟩
      rw [SortedMap.contains, henvironment r hr]
      rfl
  · rintro r hr c hc ⟨hregistered, huri⟩
    rw [henvironment r hr, ← huri]
    exact congrArg some (environmentFor_of_mem huris (mem_schemasOf.2 ⟨c, hc, hregistered, rfl⟩))
  · intro r hr hnone
    rw [henvironment r hr, environmentFor_of_absent fun s hs huri => ?_]
    obtain ⟨c, hc, hregistered, rfl⟩ := mem_schemasOf.1 hs
    exact hnone c hc ⟨hregistered, huri⟩

/-- Namespaces without colons lead each qualified name to one definition: the first of its name that
the extension requested under the namespace declares, if its client is registered. The environment
has all namespaces that are requested and no others, each with what the extension shows there, or
with false if it is not registered. In which order requests and clients come does not matter. -/
theorem names_resolve (hspaces : (requests.map (·.space)).Nodup)
    (hcolons : ∀ r ∈ requests, ':' ∉ r.space.toList) (huris : (urisOf clients).Nodup) :
    Answers requests clients (build requests clients) ∧
      ∀ requests' clients', requests'.Perm requests → clients'.Perm clients →
        (build requests' clients').command? = (build requests clients).command? ∧
        (build requests' clients').handler? = (build requests clients).handler? ∧
        (build requests' clients').environment = (build requests clients).environment := by
  refine ⟨answers_build hspaces hcolons huris, fun requests' clients' hrequests hclients => ?_⟩
  have hspaces' := (hrequests.map (·.space)).nodup_iff.2 hspaces
  have huris' : (urisOf clients').Nodup := ((hclients.filter _).map _).nodup_iff.2 huris
  have hcolons' : ∀ r ∈ requests', ':' ∉ r.space.toList := fun r hr =>
    hcolons r (hrequests.mem_iff.1 hr)
  have hanswers := (answers_build hspaces' hcolons' huris').of_perm hrequests hclients
  exact hanswers.unique (answers_build hspaces hcolons huris)

/-- A name of a command may have a colon. -/
def goHome : CommandDefinition := ⟨"browser", "go:home", .empty, false, false⟩

def browserClient : Client :=
  { Client.create "browser" .standard 0 with
    registration := .registered
      ⟨"secret", { Schema.bare "browser" with commands := [goHome] }, [], .empty⟩ }

theorem names_resolve_browser :
    let requests : List ExtensionRequest := [⟨"pad", "notes"⟩, ⟨"web", "browser"⟩]
    let clients : List Client := [.create "notes" .standard 0, browserClient]
    (requests.map (·.space)).Nodup ∧ (∀ r ∈ requests, ':' ∉ r.space.toList) ∧
      (urisOf clients).Nodup ∧
      (build requests clients).command? "web:go:home" = some goHome ∧
      (build requests clients).environment.get? "pad" = some (.bool false) := by
  intro requests clients
  have hspaces : (requests.map (·.space)).Nodup := by decide +kernel
  have hcolons : ∀ r ∈ requests, ':' ∉ r.space.toList := by decide +kernel
  have huris : (urisOf clients).Nodup := by decide +kernel
  obtain ⟨hanswers, -⟩ := names_resolve hspaces hcolons huris
  refine ⟨hspaces, hcolons, huris, (hanswers.command _ _).2 ?_, hanswers.absent _ (.head _) ?_⟩
  · refine ⟨⟨"web", "browser"⟩, .tail _ (.head _), browserClient, .tail _ (.head _), ⟨rfl, rfl⟩,
      "go:home", by decide +kernel, by decide +kernel⟩
  · rintro c hc ⟨hregistered, huri⟩
    rcases List.mem_cons.1 hc with rfl | hc
    · cases hregistered
    · obtain rfl := List.mem_singleton.1 hc
      exact absurd huri (by decide +kernel)

end Directory

end ExtensionHost
