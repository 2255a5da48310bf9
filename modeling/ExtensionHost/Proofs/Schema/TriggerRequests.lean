import Mathlib.Data.List.Induction
import ExtensionHost.Proofs.Schema.Isolation

namespace ExtensionHost

theorem SortedMap.get?_filter_keys {κ ν : Type} [Ord κ] [Std.LawfulEqOrd κ] (m : SortedMap κ ν)
    (keep : κ → Bool) (key : κ) :
    (m.filter fun k _ => keep k).get? key = if keep key then m.get? key else none :=
  lookup_filter key keep m.entries

theorem SortedMap.get?_foldl_insert_const {κ ν : Type} [Ord κ] [DecidableEq κ] [Std.TransOrd κ]
    [Std.LawfulEqOrd κ] (keys : List κ) (value : ν) (m : SortedMap κ ν) (key : κ) :
    (keys.foldl (fun m k => m.insert k value) m).get? key =
      if key ∈ keys then some value else m.get? key := by
  induction keys generalizing m with
  | nil => simp
  | cons k rest ih =>
    rw [List.foldl_cons, ih, get?_insert]
    by_cases hrest : key ∈ rest
    · simp [hrest]
    · simp [hrest]

namespace Trigger

def namedBy (entry : Json) : String := (entry.fields.string? "name").getD ""

/-- Whether an entry asks for changes, and does not take them back. -/
def asks (entry : Json) : Bool := entry.fields.flag "update" false

def collects (entry : Json) : Bool := entry.fields.flag "collapse" true

/-- What becomes of a property on which an entry has the last word: whether its changes are
collected, or none if they do not count. -/
def verdict (entry : Json) : Option Bool := if asks entry then some (collects entry) else none

/-- Whether an entry names a property or all of them. -/
def addresses (property : String) (entry : Json) : Bool :=
  entry.asObject?.isSome && (namedBy entry == property || namedBy entry == "*")

/-- Whether an entry has a say about a property: it names it, or it asks for all of them. -/
def concerns (property : String) (entry : Json) : Bool :=
  entry.asObject?.isSome && (namedBy entry == property || namedBy entry == "*" && asks entry)

def renamed (entry : Json) (property : String) : Json :=
  .ofObject (entry.fields.insert "name" (.string property))

variable {type : Properties} {property : String} {entry : Json}

theorem request_eq (type : Properties) (requested : SortedMap String Bool) (entry : Json) :
    request type requested entry =
      if entry.asObject?.isSome then
        if asks entry then
          if namedBy entry = "*" then
            type.keys.foldl (fun m property => m.insert property (collects entry)) requested
          else requested.insert (namedBy entry) (collects entry)
        else requested.erase (namedBy entry)
      else requested := by
  unfold request
  cases hfields : entry.asObject? with
  | none => rfl
  | some fields =>
    simp only [asks, namedBy, collects, Json.fields_of_asObject? hfields]
    rfl

theorem get?_request (hp : property ∈ type.keys) (requested : SortedMap String Bool)
    (entry : Json) : (request type requested entry).get? property =
      if concerns property entry then verdict entry else requested.get? property := by
  rw [request_eq, concerns, verdict]
  cases entry.asObject?.isSome with
  | false => rfl
  | true =>
    cases asks entry with
    | false => by_cases hname : namedBy entry = property <;> simp [hname]
    | true =>
      by_cases hwildcard : namedBy entry = "*"
      · simp [hwildcard, SortedMap.get?_foldl_insert_const, hp]
      · by_cases hname : property = namedBy entry
        · simp [hname, hwildcard]
        · simp [hname, Ne.symm hname, hwildcard]

theorem get?_foldl_request (hp : property ∈ type.keys) (requested : SortedMap String Bool)
    (entries : List Json) : (entries.foldl (request type) requested).get? property =
      ((entries.filter (concerns property)).getLast?.map verdict).getD
        (requested.get? property) := by
  induction entries using List.reverseRecOn with
  | nil => rfl
  | append_singleton entries entry ih =>
    rw [List.foldl_append, List.foldl_cons, List.foldl_nil, get?_request hp, List.filter_append]
    by_cases hentry : concerns property entry
    · simp [hentry]
    · simp [hentry, ih]

theorem get?_requestedProperties (type : Properties) (entries : List Json) (property : String) :
    (requestedProperties type entries).get? property =
      if type.contains property then
        (entries.filter (concerns property)).getLast?.bind verdict
      else none := by
  rw [requestedProperties, SortedMap.get?_filter_keys]
  by_cases hp : type.contains property
  · rw [if_pos hp, if_pos hp, get?_foldl_request (InsertionMap.contains_iff_mem_keys.1 hp)]
    cases (entries.filter (concerns property)).getLast? <;> rfl
  · rw [if_neg hp, if_neg hp]

theorem asObject?_renamed (entry : Json) (name : String) :
    (renamed entry name).asObject? = some (entry.fields.insert "name" (.string name)) :=
  Json.asObject?_ofObject _

theorem verdict_renamed (entry : Json) (name : String) :
    verdict (renamed entry name) = verdict entry := by
  have hflag : ∀ field default, field ≠ "name" →
      (renamed entry name).fields.flag field default = entry.fields.flag field default := by
    intro field default hne
    simp [SortedMap.flag, SortedMap.present?, Json.fields_of_asObject? (asObject?_renamed ..), hne]
  rw [verdict, verdict, asks, asks, collects, collects, hflag "update" false (by decide),
    hflag "collapse" true (by decide)]

theorem concerns_renamed (entry : Json) (property : String) :
    concerns property (renamed entry property) := by
  have hname : namedBy (renamed entry property) = property := by
    simp [namedBy, SortedMap.string?, Json.fields_of_asObject? (asObject?_renamed ..),
      Json.asString?]
  simp [concerns, hname, asObject?_renamed]

theorem isSome_of_asks (hasks : asks entry) : entry.asObject?.isSome := by
  by_contra hobject
  rw [Option.not_isSome_iff_eq_none] at hobject
  rw [asks, Json.fields_of_asObject?_eq_none hobject] at hasks
  cases hasks

theorem get?_foldl_renamed (hasks : asks entry) (hwildcard : namedBy entry = "*")
    (hp : property ∈ type.keys) (requested : SortedMap String Bool) :
    ((type.keys.map (renamed entry)).foldl (request type) requested).get? property =
      (request type requested entry).get? property := by
  have hentry : concerns property entry := by
    simp [concerns, isSome_of_asks hasks, hwildcard, hasks]
  rw [get?_foldl_request hp, get?_request hp, if_pos hentry]
  -- One of the requests is for the property, and the last one that is says the same as all of them.
  have hmem : renamed entry property ∈
      (type.keys.map (renamed entry)).filter (concerns property) :=
    List.mem_filter.2 ⟨List.mem_map_of_mem hp, concerns_renamed entry property⟩
  obtain ⟨last, hlast⟩ := Option.isSome_iff_exists.1
    (List.getLast?_isSome.2 (List.ne_nil_of_mem hmem))
  obtain ⟨name, -, rfl⟩ := List.mem_map.1 (List.mem_filter.1 (List.mem_of_getLast? hlast)).1
  rw [hlast, Option.map_some, Option.getD_some, verdict_renamed]

theorem requestedProperties_expanded (hasks : asks entry) (hwildcard : namedBy entry = "*")
    (before after : List Json) :
    requestedProperties type (before ++ entry :: after) =
      requestedProperties type (before ++ type.keys.map (renamed entry) ++ after) := by
  refine SortedMap.eq_of_get? fun property => ?_
  simp only [requestedProperties, SortedMap.get?_filter_keys]
  by_cases hp : type.contains property
  · have hmem := InsertionMap.contains_iff_mem_keys.1 hp
    rw [if_pos hp, if_pos hp, List.append_assoc, List.foldl_append, List.foldl_append,
      List.foldl_cons, List.foldl_append, get?_foldl_request hmem, get?_foldl_request hmem,
      get?_foldl_renamed hasks hwildcard hmem]
  · rw [if_neg hp, if_neg hp]

theorem requestedProperties_passed (hasks : ¬ asks entry) (hwildcard : namedBy entry = "*")
    (htype : ¬ type.contains "*") (before after : List Json) :
    requestedProperties type (before ++ entry :: after) =
      requestedProperties type (before ++ after) := by
  refine SortedMap.eq_of_get? fun property => ?_
  rw [get?_requestedProperties, get?_requestedProperties]
  by_cases hp : type.contains property
  · have hne : "*" ≠ property := by
      rintro rfl
      exact htype hp
    have hentry : ¬ concerns property entry := by simp [concerns, hwildcard, hasks, hne]
    rw [List.filter_append, List.filter_cons_of_neg hentry, ← List.filter_append]
  · rw [if_neg hp, if_neg hp]

/-- The properties whose changes a block of live data asks for, with whether they are collected. The
last entry that names a property or asks for all of them decides; without one, and for properties
that the type does not have, changes do not count. An entry that asks for all properties stands for
one entry for each of them. One that takes all of them back has no effect, unless there is a
property of this name. -/
theorem last_request_decides (type : Properties) (entries : List Json) :
    (∀ live events block fields, (events.get? block).bind Json.asObject? = some fields →
      fields.present? "properties" = some (.array entries) →
      read? live type events block =
        some (⟨fields.nonemptyString? "eventHandler", requestedProperties type entries⟩, [])) ∧
    (∀ property, (requestedProperties type entries).get? property =
      if type.contains property then
        (entries.filter (concerns property)).getLast?.bind verdict
      else none) ∧
    (∀ before entry after, entries = before ++ entry :: after → namedBy entry = "*" →
      (asks entry → requestedProperties type entries =
        requestedProperties type (before ++ type.keys.map (renamed entry) ++ after)) ∧
      (¬ asks entry → ¬ type.contains "*" →
        requestedProperties type entries = requestedProperties type (before ++ after))) ∧
    ((∀ entry ∈ entries, namedBy entry = "*" → asks entry) →
      ∀ property, (requestedProperties type entries).get? property =
        if type.contains property then
          (entries.filter (addresses property)).getLast?.bind verdict
        else none) := by
  refine ⟨fun live events block fields hblock hentries => ?_,
    get?_requestedProperties type entries, ?_, fun hall property => ?_⟩
  · simp only [read?, hblock, hentries, Option.map_some]
  · rintro before entry after rfl hwildcard
    exact ⟨fun hasks => requestedProperties_expanded hasks hwildcard before after,
      fun hasks htype => requestedProperties_passed hasks hwildcard htype before after⟩
  · have hsame : entries.filter (addresses property) = entries.filter (concerns property) := by
      refine List.filter_congr fun entry hentry => ?_
      rw [addresses, concerns]
      by_cases hwildcard : namedBy entry = "*"
      · rw [hall entry hentry hwildcard, Bool.and_true]
      · rw [beq_false_of_ne hwildcard, Bool.false_and]
    rw [hsame]
    exact get?_requestedProperties type entries property

def track : Properties :=
  (InsertionMap.empty.insert "title" (.declared .string .null true)).insert "volume"
    (.declared .number .null true)

def requestFor (name : String) (update : Bool) : Json :=
  .object [("name", .string name), ("update", .bool update)]

/-- All properties, but not the volume, and one that there is not. -/
theorem last_request_decides_track :
    let entries := [requestFor "*" true, requestFor "volume" false, requestFor "ghost" true]
    let block := [("eventHandler", .string "queued"), ("properties", .array entries)]
    read? "queue" track (.ofList [("add", .object block)]) "add" =
        some (⟨some "queued", requestedProperties track entries⟩, []) ∧
      (requestedProperties track entries).entries = [("title", true)] ∧
      (requestedProperties track entries).get? "volume" = none ∧
      requestedProperties track entries = requestedProperties track
        [requestFor "title" true, requestFor "volume" true, requestFor "volume" false,
          requestFor "ghost" true] := by
  intro entries block
  obtain ⟨hread, hdecided, hexpanded, -⟩ := last_request_decides track entries
  have hhandler : (SortedMap.ofList block).nonemptyString? "eventHandler" = some "queued" := by
    decide +kernel
  have hwildcard : namedBy (requestFor "*" true) = "*" := by decide +kernel
  have hrequests : track.keys.map (renamed (requestFor "*" true)) =
      [requestFor "title" true, requestFor "volume" true] := by decide +kernel
  refine ⟨?_, by decide +kernel, (hdecided "volume").trans (by decide +kernel), ?_⟩
  · rw [hread "queue" _ "add" (.ofList block) (by decide +kernel) (by decide +kernel), hhandler]
  · rw [(hexpanded [] _ _ rfl hwildcard).1 (by decide +kernel), hrequests]
    rfl

/-- All properties are taken back after the title has been asked for, and the title is asked for
all the same. -/
theorem wildcard_takes_nothing_back :
    let entries := [requestFor "title" true, requestFor "*" false]
    track.contains "title" ∧ (entries.filter (addresses "title")).getLast?.bind verdict = none ∧
      (requestedProperties track entries).get? "title" = some true := by
  decide +kernel

end Trigger

end ExtensionHost
