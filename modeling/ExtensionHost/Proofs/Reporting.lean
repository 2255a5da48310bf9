import ExtensionHost.Proofs.Contents
import ExtensionHost.Proofs.Pending

namespace ExtensionHost.Host

variable {h : Host} {s : Step} {k : ClientId} {c c' : Client} {hist : List (Host × Step)}
  {conn conn' : Connection} {name : String} {f : Feed}

def Reports (k : ClientId) (name : String) (e : Host × Step) : Prop := (report? k name e).isSome

/-- An operation of an update that is accepted in a step is applied to live data. -/
def Applies (k : ClientId) (name : String) (e : Host × Step) : Prop :=
  ∃ contents, e.1.contents? k name = some contents ∧ SomeApplied (mutations k name e) contents

def Registers (k : ClientId) (e : Host × Step) : Prop :=
  ∃ m, e.1.accepted? k e.2 = some (.registerSuccess, m)

/-- The contents that live data had at its last report, or at registration if there has been
none. -/
def LastReported (k : ClientId) (name : String) (contents : Json) : List (Host × Step) → Prop :=
  Since
    (fun e => (Reports k name e ∨ Registers k e) ∧
      (e.1.perform e.2).host.contents? k name = some contents)
    (Reports k name)

/-- An inbound operation has been applied to live data, and there has been no report since. -/
def Unreported (k : ClientId) (name : String) : List (Host × Step) → Prop :=
  Since (fun e => Applies k name e ∧ ¬ Reports k name e) (Reports k name)

/-- What the flags of live data say about what has happened. -/
structure Noticed (k : ClientId) (hist : List (Host × Step)) (h : Host) (c : Client)
    (conn : Connection) : Prop where
  clean : (∀ e ∈ hist, ∀ name, e.2 ≠ .discard k name) →
    ∀ name f, conn.feeds.get? name = some f → ∃ contents, LastReported k name contents hist ∧
      (f.pending = false → f.replica.hasChanges = false → f.replica.snapshot = contents)
  bound : (h.boundDocument c).isSome →
    ∀ name f, conn.feeds.get? name = some f → f.pending = false
  pending : ∀ name f, conn.feeds.get? name = some f →
    (f.pending = true ↔ Unreported k name hist)
  owing : ∀ name f, conn.feeds.get? name = some f → f.pending = true → f.owesSnapshot = true

theorem contents?_of_feed (hc : h.clients.get? k = some c) (hconn : c.connection? = some conn)
    (hf : conn.feeds.get? name = some f) : h.contents? k name = some f.replica.snapshot := by
  simp [contents?, hc, Client.feeds_of_connection hconn, hf]

theorem noticed_new (hc' : (h.perform s).host.clients.get? k = some c')
    (hconn : c'.connection? = some conn) (hnew : Client.Connection.IsNew conn)
    (hreg : Registers k (h, s)) (hturns : ∀ e ∈ hist ++ [(h, s)], e.1.turn? k e.2 = none) :
    Noticed k (hist ++ [(h, s)]) (h.perform s).host c' conn := by
  have hclean : ∀ name f, conn.feeds.get? name = some f → f.pending = false := by
    intro name f hf
    rw [hnew.feeds name, Option.map_eq_some_iff] at hf
    obtain ⟨d, -, rfl⟩ := hf
    rfl
  refine ⟨fun _ name f hf => ?_, fun _ => hclean, fun name f hf => ?_, fun name f hf hp => ?_⟩
  · refine ⟨f.replica.snapshot, since_concat.2 (.inl ⟨.inr hreg, ?_⟩), fun _ _ => rfl⟩
    exact contents?_of_feed hc' hconn hf
  · rw [hclean name f hf]
    refine ⟨by simp, fun hun => ?_⟩
    obtain ⟨⟨h₁, s₁⟩, he, ⟨contents, -, happlied⟩, -⟩ := Since.exists_mem hun
    rw [mutations_eq, hturns (h₁, s₁) he] at happlied
    simp [SomeApplied] at happlied
  · rw [hclean name f hf] at hp
    cases hp

theorem report?_eq (hc : h.clients.get? k = some c) (hconn : c.connection? = some conn)
    (hf : conn.feeds.get? name = some f) :
    report? k name (h, s) = (h.turn? k s).bind (f.report? name) := by
  simp [report?, hc, Client.feeds_of_connection hconn, hf]

theorem applies_iff (hc : h.clients.get? k = some c) (hconn : c.connection? = some conn)
    (hf : conn.feeds.get? name = some f) :
    Applies k name (h, s) ↔ ∃ t, h.turn? k s = some t ∧ t.applies name f := by
  simp only [Applies, contents?_of_feed hc hconn hf, mutations_eq, Turn.applies_iff]
  cases h.turn? k s <;> simp [SomeApplied]

theorem lastReported_step {contents : Json} {t : Option Turn} (hturn : h.turn? k s = t)
    (hreport : report? k name (h, s) = t.bind (f.report? name))
    (hafter : (h.perform s).host.contents? k name =
      some (t.elim f (f.turned name)).replica.snapshot)
    (hdiscard : ∀ n, t ≠ some (.discard n)) (hlast : LastReported k name contents hist)
    (hclean : f.pending = false → f.replica.hasChanges = false → f.replica.snapshot = contents) :
    ∃ contents', LastReported k name contents' (hist ++ [(h, s)]) ∧
      ((t.elim f (f.turned name)).pending = false →
        (t.elim f (f.turned name)).replica.hasChanges = false →
        (t.elim f (f.turned name)).replica.snapshot = contents') := by
  cases hr : t.bind (f.report? name) with
  | some notices =>
    have hreports : Reports k name (h, s) := by simp [Reports, hreport, hr]
    exact ⟨_, since_concat.2 (.inl ⟨.inl hreports, hafter⟩), fun _ _ => rfl⟩
  | none =>
    -- Without a report, a feed that is clean now was clean before, with the same contents.
    have hquiet : ¬ Reports k name (h, s) := by simp [Reports, hreport, hr]
    refine ⟨contents, since_concat.2 (.inr ⟨hlast, hquiet⟩), fun hp hlog => ?_⟩
    cases t with
    | none => exact hclean hp hlog
    | some t =>
      simp only [Option.elim_some] at hp hlog ⊢
      rw [Option.bind_some] at hr
      rw [Feed.turned_of_no_report hr] at hp hlog ⊢
      have hsame := Feed.touched_of_clean (fun n hn => hdiscard n (congrArg some hn)) hp hlog
      rw [hsame] at hp hlog ⊢
      exact hclean hp hlog

theorem unreported_step {t : Option Turn}
    (hreport : report? k name (h, s) = t.bind (f.report? name))
    (happlies : Applies k name (h, s) ↔ ∃ u, t = some u ∧ u.applies name f)
    (hold : f.pending = true ↔ Unreported k name hist) :
    (t.elim f (f.turned name)).pending = true ↔ Unreported k name (hist ++ [(h, s)]) := by
  unfold Unreported at hold ⊢
  rw [since_concat, ← hold, happlies]
  cases hr : t.bind (f.report? name) with
  | some notices =>
    have hreports : Reports k name (h, s) := by simp [Reports, hreport, hr]
    obtain ⟨u, rfl, hu⟩ := Option.bind_eq_some_iff.1 hr
    simp [Feed.turned_of_report hu, Feed.reported, hreports]
  | none =>
    have hquiet : ¬ Reports k name (h, s) := by simp [Reports, hreport, hr]
    cases t with
    | none => simp [hquiet]
    | some u =>
      rw [Option.bind_some] at hr
      simp [Feed.turned_of_no_report hr, Feed.touched_pending, hquiet, or_comm]

theorem turned_pending_of_bound (hc : h.clients.get? k = some c)
    (hb : (h.boundDocument c).isSome ∨ h.turn? k s = some .bind)
    (hold : (h.boundDocument c).isSome → f.pending = false) :
    ((h.turn? k s).elim f (f.turned name)).pending = false := by
  cases ht : h.turn? k s with
  | none =>
    rcases hb with hb | hb
    · exact hold hb
    · rw [ht] at hb
      cases hb
  | some t =>
    rw [Option.elim_some]
    rcases hb with hb | hb
    · refine Feed.turned_pending_of_heard (fun heard u hu => ?_) (hold hb)
      exact (turn?_eq_update hc (hu ▸ ht)).trans hb
    · obtain rfl : t = .bind := Option.some.inj (ht.symm.trans hb)
      exact Feed.turned_bind_pending name f

theorem noticed_step (hc : h.clients.get? k = some c)
    (hc' : (h.perform s).host.clients.get? k = some c') (hconn : c.connection? = some conn)
    (hconn' : c'.connection? = some conn')
    (hfeeds : ∀ name, conn'.feeds.get? name =
      (conn.feeds.get? name).map fun f => (h.turn? k s).elim f (f.turned name))
    (hbound : ((h.perform s).host.boundDocument c').isSome →
      (h.boundDocument c).isSome ∨ h.turn? k s = some .bind)
    (hi : Noticed k hist h c conn) :
    Noticed k (hist ++ [(h, s)]) (h.perform s).host c' conn' := by
  have hold : ∀ name f', conn'.feeds.get? name = some f' → ∃ f, conn.feeds.get? name = some f ∧
      f' = (h.turn? k s).elim f (f.turned name) := by
    intro name f' hf'
    rw [hfeeds, Option.map_eq_some_iff] at hf'
    obtain ⟨f, hf, rfl⟩ := hf'
    exact ⟨f, hf, rfl⟩
  refine ⟨fun hnone name f' hf' => ?_, fun hb name f' hf' => ?_, fun name f' hf' => ?_,
    fun name f' hf' hp => ?_⟩
  · have hafter := contents?_of_feed hc' hconn' hf'
    obtain ⟨f, hf, rfl⟩ := hold name f' hf'
    have hbefore : ∀ e ∈ hist, ∀ n, e.2 ≠ .discard k n := fun e he =>
      hnone e (List.mem_append_left _ he)
    obtain ⟨contents, hlast, hclean⟩ := hi.clean hbefore name f hf
    refine lastReported_step rfl (report?_eq hc hconn hf) hafter (fun n hn => ?_) hlast hclean
    exact hnone (h, s) (by simp) n (turn?_eq_discard hc hn)
  · obtain ⟨f, hf, rfl⟩ := hold name f' hf'
    exact turned_pending_of_bound hc (hbound hb) fun hb => hi.bound hb name f hf
  · obtain ⟨f, hf, rfl⟩ := hold name f' hf'
    exact unreported_step (report?_eq hc hconn hf) (applies_iff hc hconn hf)
      (hi.pending name f hf)
  · obtain ⟨f, hf, rfl⟩ := hold name f' hf'
    cases ht : h.turn? k s with
    | none =>
      rw [ht] at hp
      exact hi.owing name f hf hp
    | some t =>
      rw [ht] at hp
      exact Feed.turned_owing (hi.owing name f hf) hp

theorem noticed_after (steps : List Step) (hc : (start.after steps).clients.get? k = some c)
    (hconn : c.connection? = some conn) :
    Noticed k (start.history steps) (start.after steps) c conn := by
  refine connection_induction k (fun hist h s c c' conn m _ _ hc' hconn hnew hacc hturns => ?_)
    (fun hist h s c c' conn conn' hn hc hc' hconn hconn' _ hfeeds hi => ?_) steps hc hconn
  · exact noticed_new hc' hconn hnew ⟨m, hacc⟩ hturns
  · exact noticed_step hc hc' hconn hconn' hfeeds (bound_before hn hc hc' hconn) hi

theorem connection?_of_feed (hf : c.feeds.get? name = some f) :
    ∃ conn, c.connection? = some conn ∧ conn.feeds.get? name = some f := by
  cases hconn : c.connection? with
  | none =>
    rw [Client.feeds_of_unregistered hconn] at hf
    cases hf
  | some conn => exact ⟨conn, rfl, (Client.feeds_of_connection hconn) ▸ hf⟩

/-- Whatever happens before it, the next report about a feed that is pending is a snapshot. -/
theorem next_report {steps more : List Step} {notices : List Notice}
    (hun : Unreported k name (start.history steps))
    (hmore : ∀ e ∈ (start.after steps).history more, ¬ Reports k name e)
    (hr : report? k name (start.after (steps ++ more), s) = some notices) :
    ∃ c' f', ((start.after (steps ++ more)).perform s).host.clients.get? k = some c' ∧
      c'.feeds.get? name = some f' ∧ f'.Shows notices := by
  obtain ⟨f, hf, t, ht, hnotices⟩ : ∃ f, (((start.after (steps ++ more)).clients.get? k).bind
      (·.feeds.get? name)) = some f ∧ ∃ t, (start.after (steps ++ more)).turn? k s = some t ∧
        f.report? name t = some notices := by
    simpa [report?, Option.bind_eq_some_iff] using hr
  obtain ⟨c, hc, hf⟩ := Option.bind_eq_some_iff.1 hf
  obtain ⟨conn, hconn, hf'⟩ := connection?_of_feed hf
  have hi := noticed_after (steps ++ more) hc hconn
  have hpending : f.pending = true := by
    rw [hi.pending name f hf', history_append]
    exact hun.append hmore
  have howes := hi.owing name f hf' hpending
  obtain ⟨c', hc', hfeeds⟩ := feeds_perform hc ht
  refine ⟨c', f.turned name t, hc', by rw [hfeeds, hf]; rfl, ?_⟩
  rw [Feed.turned_of_report hnotices, Feed.report_of_owes howes hnotices,
    ← Feed.snapshotNotices_reported]
  exact Feed.shows_snapshotNotices _

theorem flushed (hc : h.clients.get? k = some c)
    (hc' : (h.perform (.flushAll k)).host.clients.get? k = some c')
    (hf : c'.feeds.get? name = some f) :
    f.pending = false ∧ f.replica.hasChanges = false := by
  cases hconn : c.connection? with
  | none =>
    obtain ⟨conn', hconn', -⟩ := connection?_of_feed hf
    have hs : (Step.flushAll k).actor? = some k := rfl
    have hclient := act_of_perform hs hc hc'
    rcases (awaits_act hs hc hconn).connection with hnone | ⟨_, _, -, -, hacc⟩
    · rw [hclient, hconn'] at hnone
      cases hnone
    · rw [accepted?_of_not_inbound rfl] at hacc
      cases hacc
  | some conn =>
    have ht : h.turn? k (.flushAll k) = some .flushAll := by
      simp [turn?, hc, Step.actor?, hconn]
    obtain ⟨c₁, hc₁, hfeeds⟩ := feeds_perform hc ht
    obtain rfl : c' = c₁ := Option.some.inj (hc'.symm.trans hc₁)
    rw [hfeeds, Option.map_eq_some_iff] at hf
    obtain ⟨f₀, -, rfl⟩ := hf
    rw [Feed.turned_flushAll]
    split
    · exact ⟨rfl, f₀.replica.hasChanges_forgetChanges⟩
    · rename_i hnews
      simp only [Client.hasNews, Bool.not_eq_true, Bool.or_eq_false_iff] at hnews
      exact hnews.symm

/-- No change to live data goes unnoticed, provided the host does not throw records of changes
away. What is neither pending nor recorded as changed is as it was reported last. Nothing is
pending while a document is bound. What is pending is what inbound operations have been applied to
since the last report, and the next report is then a snapshot. Flushing leaves nothing to report. -/
theorem changes_noticed (steps : List Step) (hnone : ∀ name, .discard k name ∉ steps)
    (hc : (start.after steps).clients.get? k = some c) :
    (∀ name f, c.feeds.get? name = some f → f.pending = false → f.replica.hasChanges = false →
      LastReported k name f.replica.snapshot (start.history steps)) ∧
    (((start.after steps).boundDocument c).isSome →
      ∀ name f, c.feeds.get? name = some f → f.pending = false) ∧
    (∀ name f, c.feeds.get? name = some f →
      (f.pending = true ↔ Unreported k name (start.history steps)) ∧
      (f.pending = true → ∀ more s notices,
        (∀ e ∈ (start.after steps).history more, ¬ Reports k name e) →
        report? k name (start.after (steps ++ more), s) = some notices →
        ∃ c' f', ((start.after (steps ++ more)).perform s).host.clients.get? k = some c' ∧
          c'.feeds.get? name = some f' ∧ f'.Shows notices)) ∧
    ∀ c' name f', ((start.after steps).perform (.flushAll k)).host.clients.get? k = some c' →
      c'.feeds.get? name = some f' → f'.pending = false ∧ f'.replica.hasChanges = false := by
  refine ⟨fun name f hf hp hlog => ?_, fun hb name f hf => ?_, fun name f hf => ?_,
    fun c' name f' hc' hf' => flushed hc hc' hf'⟩
  · obtain ⟨conn, hconn, hf⟩ := connection?_of_feed hf
    have hi := noticed_after steps hc hconn
    obtain ⟨contents, hlast, hclean⟩ := hi.clean
      (fun e he n hn => hnone n (hn ▸ mem_of_mem_history he)) name f hf
    rw [hclean hp hlog]
    exact hlast
  · obtain ⟨conn, hconn, hf⟩ := connection?_of_feed hf
    exact (noticed_after steps hc hconn).bound hb name f hf
  · obtain ⟨conn, hconn, hf⟩ := connection?_of_feed hf
    have hpending := (noticed_after steps hc hconn).pending name f hf
    exact ⟨hpending, fun hp more s notices hmore hr => next_report (hpending.1 hp) hmore hr⟩

/-- An operation arrives while no document is bound. -/
def unheard : List Step :=
  [.createServices (.startingAt 1000) (.startingAt 1), .createClient "notes" .standard 0,
    .receive 1 "" notesConsent, .receive 1 "" (tagUpdate [tagInsertion "urgent"])]

/-- The next report shows the tag, and then there is nothing left to report. -/
theorem changes_noticed_unheard :
    (∀ name, .discard 1 name ∉ unheard) ∧ Unreported 1 "tags" (start.history unheard) ∧
      report? 1 "tags" (start.after unheard, .flushAll 1) =
        some [⟨some "tagged", .array [.string "urgent"], none⟩] ∧
      ∃ c f, ((start.after unheard).perform (.flushAll 1)).host.clients.get? 1 = some c ∧
        c.feeds.get? "tags" = some f ∧ f.pending = false ∧ f.replica.hasChanges = false := by
  have hnone : ∀ name, .discard 1 name ∉ unheard := by simp [unheard]
  have hclient : ∃ c f, (start.after unheard).clients.get? 1 = some c ∧
      c.feeds.get? "tags" = some f ∧ f.pending = true := ⟨_, _, rfl, rfl, by decide +kernel⟩
  have hafter : ∃ c f, ((start.after unheard).perform (.flushAll 1)).host.clients.get? 1 = some c ∧
      c.feeds.get? "tags" = some f ∧ f.onAdd.handler? = some "tagged" ∧
      f.replica.snapshot = .array [.string "urgent"] :=
    ⟨_, _, rfl, rfl, by decide +kernel, by decide +kernel⟩
  obtain ⟨c, f, hc, hf, hp⟩ := hclient
  obtain ⟨c', f', hc', hf', hadd, hcontents⟩ := hafter
  obtain ⟨-, -, hpending, hflushed⟩ := changes_noticed unheard hnone hc
  obtain ⟨hun, hnext⟩ := hpending "tags" f hf
  have hreport : (report? 1 "tags" (start.after unheard, .flushAll 1)).isSome := by
    decide +kernel
  obtain ⟨notices, hr⟩ := Option.isSome_iff_exists.1 hreport
  obtain ⟨c₁, f₁, hc₁, hf₁, hshows⟩ :=
    hnext hp [] (.flushAll 1) notices (by simp [history]) (by rwa [List.append_nil])
  rw [List.append_nil, hc'] at hc₁
  cases hc₁
  obtain rfl : f' = f₁ := Option.some.inj (hf'.symm.trans hf₁)
  refine ⟨hnone, hun.1 hp, hr.trans ?_, c', f', hc', hf', hflushed c' "tags" f' hc' hf'⟩
  cases hshows with
  | array hitems hnotices =>
    obtain rfl := Json.array.inj (hcontents.symm.trans hitems)
    rw [hnotices, hadd]
  | map hfields =>
    rw [hcontents] at hfields
    cases hfields

end ExtensionHost.Host
