import Mathlib.Algebra.BigOperators.Group.Finset.Basic
import TemplateProjection.Proofs.Calls

/-!
A virtual document is built again when edits have overtaken the build. The call returns the first
one that no change overtakes, and gives up once it has made all its attempts.
-/
namespace TemplateProjection

variable {s : Session} {file : DocumentId} {document document' : Document} {edits : List Edit}
  {events : List Event} {d : VirtualDocument}

/-- The edit neither closes the document nor cancels the call. -/
def Edit.spares (file : DocumentId) : Edit → Bool
  | .change _ _ => true
  | .close file' => file'.original ≠ file.original
  | .cancel => false

/-- A document stays open while edits spare it. -/
theorem Session.exists_find?_editedAll (h : s.ids.Nodup)
    (hspares : ∀ edit ∈ edits, edit.spares file) (hfind : s.find? file = some document) :
    ∃ document', (s.editedAll edits).find? file = some document' := by
  induction edits generalizing s document with
  | nil => exact ⟨document, hfind⟩
  | cons edit edits ih =>
    obtain ⟨hedit, hedits⟩ := List.forall_mem_cons.1 hspares
    have hopen : ∃ next, (s.edited edit).find? file = some next := by
      cases edit with
      | change file' text =>
        rw [edited, find?_modify]
        split
        · exact ⟨_, by rw [hfind, Option.map_some]⟩
        · exact ⟨document, hfind⟩
      | close file' =>
        have hother : file'.original ≠ file.original := of_decide_eq_true hedit
        exact ⟨document, by rw [edited, find?_close h, if_neg (Ne.symm hother), hfind]⟩
      | cancel => cases hedit
    obtain ⟨next, hnext⟩ := hopen
    exact ih (nodup_edited h edit) hedits hnext

namespace Call

variable {c : Call}

theorem performAll_cancelled (hspares : ∀ edit ∈ edits, edit.spares file) :
    (c.performAll edits).cancelled = c.cancelled := by
  induction edits generalizing c with
  | nil => rfl
  | cons edit edits ih =>
    obtain ⟨hedit, hedits⟩ := List.forall_mem_cons.1 hspares
    have hkept : (c.perform edit).cancelled = c.cancelled := by
      cases edit with
      | change => rfl
      | close => rfl
      | cancel => cases hedit
    exact (ih hedits).trans hkept

/-- The call after the edits that happen during `n` builds of a document. -/
def afterBuilds (c : Call) (file : DocumentId) : Nat → Call
  | 0 => c
  | n + 1 => (c.afterBuild file).afterBuilds file n

/-- The edits that happen during a build of the document, when `n` others have come before it. -/
def editsDuring (c : Call) (file : DocumentId) (n : Nat) : List Edit :=
  ((c.afterBuilds file n).nextBuild file).1

/-- How often the document changes during that build. -/
def changesDuring (c : Call) (file : DocumentId) (n : Nat) : Nat :=
  changesMade file (c.editsDuring file n) (c.afterBuilds file n).session

/-- The document changes during each of `n` builds, so that another one is needed. -/
def Overtaken (c : Call) (file : DocumentId) (n : Nat) : Prop :=
  ∀ i < n, 0 < c.changesDuring file i

/-- A document that is closed or up to date is not built. -/
def buildsOfRebuild (c : Call) (file : DocumentId) : Nat :=
  match c.session.find? file with
  | none => 0
  | some document => if document.current?.isSome then 0 else 1

/-- How often the document is built in the attempts to get its virtual document. -/
def buildsOfAttempt (file : DocumentId) : (attempts : Nat) → Call → Nat
  | 0, _ => 0
  | attempts + 1, c =>
    if c.cancelled then 0
    else c.buildsOfRebuild file +
      match c.rebuild file with
      | (.ok (.superseded _ _), c) => buildsOfAttempt file attempts c
      | _ => 0

def buildsOfVirtualDocument (c : Call) (file : DocumentId) : Nat :=
  if (c.session.find? file).isNone then 0 else buildsOfAttempt file rebuildAttempts c

/-- The call is about to build the document, which is out of date. -/
structure Awaits (c : Call) (file : DocumentId) (document : Document) : Prop where
  explained : ∃ events, Explains events c.session
  opened : c.session.find? file = some document
  stale : document.current? = none
  uncancelled : c.cancelled = false

/-- The build can be made, and the document stays open during it. -/
structure Buildable (c : Call) (file : DocumentId) : Prop where
  spares : ∀ edit ∈ (c.nextBuild file).1, edit.spares file
  built : ∀ document, c.session.find? file = some document →
    ∃ d, VirtualDocument.build? file.original document.text document.version
      document.language = some d

/-- What the next build comes to: the document is installed, unless changes overtake the build. -/
theorem Awaits.rebuild (h : c.Awaits file document) (hbuildable : c.Buildable file) :
    ∃ d document', VirtualDocument.build? file.original document.text document.version
        document.language = some d ∧
      (c.afterBuild file).session.find? file = some document' ∧
      document'.version = document.version + c.changesDuring file 0 ∧
      document'.installed = document.installed ∧
      (c.changesDuring file 0 = 0 → document' = document ∧
        c.rebuild file = (.ok (.installed d), (c.afterBuild file).install d)) ∧
      (0 < c.changesDuring file 0 →
        c.rebuild file = (.ok (.superseded document.version document'.version),
          c.afterBuild file)) := by
  obtain ⟨events, he⟩ := h.explained
  obtain ⟨d, hbuild⟩ := hbuildable.built document h.opened
  obtain ⟨document', hfind'⟩ :=
    Session.exists_find?_editedAll he.nodup hbuildable.spares h.opened
  obtain ⟨before, hbefore, -, hinstalled, hversion, -⟩ :=
    Session.find?_editedAll he.nodup hfind'
  obtain rfl := Option.some.inj (h.opened.symm.trans hbefore)
  rw [← afterBuild_session] at hfind'
  have hchanges : c.changesDuring file 0 = changesMade file (c.nextBuild file).1 c.session := rfl
  rw [← hchanges] at hversion
  refine ⟨d, document', hbuild, hfind', hversion, hinstalled, ?_⟩
  have hcase := rebuild_case he.nodup file
  generalize c.rebuild file = out, c.editsOfRebuild file = edits at hcase
  cases hcase with
  | unknown hclosed => simp [h.opened] at hclosed
  | current hopen hcurrent =>
    obtain rfl := Option.some.inj (h.opened.symm.trans hopen)
    simp [h.stale] at hcurrent
  | failed hopen hfailed =>
    obtain rfl := Option.some.inj (h.opened.symm.trans hopen)
    simp [hbuild] at hfailed
  | @installed _ built hopen hbuilt hunchanged =>
    obtain rfl := Option.some.inj (h.opened.symm.trans hopen)
    obtain rfl := Option.some.inj (hbuild.symm.trans hbuilt)
    obtain rfl := hunchanged document' hfind'
    exact ⟨fun _ => ⟨rfl, rfl⟩, fun hsome => by omega⟩
  | @superseded _ version hopen hlt hcurrent =>
    obtain rfl := Option.some.inj (h.opened.symm.trans hopen)
    obtain rfl := hcurrent document' hfind'
    exact ⟨fun hnone => by omega, fun _ => rfl⟩

theorem Awaits.buildsOfRebuild (h : c.Awaits file document) : c.buildsOfRebuild file = 1 := by
  simp [Call.buildsOfRebuild, h.opened, h.stale]

/-- After a build that was overtaken, the call awaits the next one. -/
theorem Awaits.overtaken (h : c.Awaits file document) (hbuildable : c.Buildable file)
    (hchanged : 0 < c.changesDuring file 0) (attempts : Nat) (built : Option Nat) :
    ∃ document', (c.afterBuild file).Awaits file document' ∧
      document'.version = document.version + c.changesDuring file 0 ∧
      document'.installed = document.installed ∧
      attempt file (attempts + 1) built c =
        attempt file attempts (some document.version) (c.afterBuild file) ∧
      buildsOfAttempt file (attempts + 1) c =
        1 + buildsOfAttempt file attempts (c.afterBuild file) := by
  obtain ⟨events, he⟩ := h.explained
  obtain ⟨d, document', -, hfind', hversion, hinstalled, -, hsuperseded⟩ := h.rebuild hbuildable
  have hrebuild := hsuperseded hchanged
  have hsteps := (rebuild_case he.nodup file).steps
  rw [hrebuild] at hsteps
  have hstale : document'.current? = none := by
    cases hcurrent : document'.current? with
    | none => rfl
    | some d =>
      -- the installed virtual document is no newer than the document was before the build
      obtain ⟨hd, hsame⟩ := Document.current?_eq_some_iff.1 hcurrent
      have hle := (he.follows file document h.opened).version_le (hinstalled ▸ hd)
      omega
  have huncancelled : (c.afterBuild file).cancelled = false :=
    (performAll_cancelled hbuildable.spares).trans h.uncancelled
  refine ⟨document', ⟨⟨_, he.steps hsteps⟩, hfind', hstale, huncancelled⟩, hversion, hinstalled,
    ?_, ?_⟩
  · simp [attempt, h.uncancelled, hrebuild]
  · simp [buildsOfAttempt, h.uncancelled, h.buildsOfRebuild, hrebuild]

theorem sum_changesDuring_succ (c : Call) (file : DocumentId) (n : Nat) :
    ∑ i ∈ Finset.range (n + 1), c.changesDuring file i =
      c.changesDuring file 0 + ∑ i ∈ Finset.range n, (c.afterBuild file).changesDuring file i := by
  rw [Finset.sum_range_succ', Nat.add_comm]
  rfl

/-- The first build that is not overtaken is installed. By induction on the builds before it. -/
theorem Awaits.attempt_installs {k attempts : Nat} (h : c.Awaits file document)
    (hbuildable : ∀ n ≤ k, (c.afterBuilds file n).Buildable file) (hovertaken : c.Overtaken file k)
    (hquiet : c.changesDuring file k = 0) (hk : k < attempts) (built : Option Nat) :
    ∃ d latest, (c.afterBuilds file (k + 1)).session.find? file = some latest ∧
      latest.version = document.version + ∑ n ∈ Finset.range k, c.changesDuring file n ∧
      VirtualDocument.build? file.original latest.text latest.version latest.language = some d ∧
      attempt file attempts built c = (.ok d, (c.afterBuilds file (k + 1)).install d) ∧
      buildsOfAttempt file attempts c = k + 1 := by
  obtain ⟨attempts, rfl⟩ : ∃ rest, attempts = rest + 1 := ⟨attempts - 1, by omega⟩
  induction k generalizing c document attempts built with
  | zero =>
    obtain ⟨d, document', hbuild, hfind', -, -, hinstalled, -⟩ :=
      h.rebuild (hbuildable 0 (Nat.le_refl 0))
    obtain ⟨rfl, hrebuild⟩ := hinstalled hquiet
    refine ⟨d, document', hfind', by simp, hbuild, ?_, ?_⟩
    · simp [attempt, h.uncancelled, hrebuild, afterBuilds]
    · simp [buildsOfAttempt, h.uncancelled, h.buildsOfRebuild, hrebuild]
  | succ k ih =>
    obtain ⟨document', hnext, hversion, -, hattempt, hbuilds⟩ :=
      h.overtaken (hbuildable 0 (Nat.zero_le _)) (hovertaken 0 (Nat.succ_pos k)) attempts built
    obtain ⟨attempts, rfl⟩ : ∃ rest, attempts = rest + 1 := ⟨attempts - 1, by omega⟩
    obtain ⟨d, latest, hfind, hlatest, hbuild, hout, hcount⟩ :=
      ih hnext (fun n hn => hbuildable (n + 1) (Nat.succ_le_succ hn))
        (fun n hn => hovertaken (n + 1) (Nat.succ_lt_succ hn)) hquiet (some document.version)
        attempts (by omega)
    rw [hversion, Nat.add_assoc, ← sum_changesDuring_succ] at hlatest
    exact ⟨d, latest, hfind, hlatest, hbuild, hattempt.trans hout, by omega⟩

/-- If every build is overtaken, the call fails and names the version that was built last. -/
theorem Awaits.attempt_busy {n : Nat} (h : c.Awaits file document)
    (hbuildable : ∀ i ≤ n, (c.afterBuilds file i).Buildable file)
    (hovertaken : c.Overtaken file (n + 1)) (built : Option Nat) :
    ∃ latest, (c.afterBuilds file (n + 1)).session.find? file = some latest ∧
      latest.installed = document.installed ∧
      attempt file (n + 1) built c =
        (.error (.busy file (document.version + ∑ i ∈ Finset.range n, c.changesDuring file i)
          (document.version + ∑ i ∈ Finset.range (n + 1), c.changesDuring file i)),
          c.afterBuilds file (n + 1)) ∧
      buildsOfAttempt file (n + 1) c = n + 1 := by
  induction n generalizing c document built with
  | zero =>
    obtain ⟨document', hnext, hversion, hinstalled, hattempt, hbuilds⟩ :=
      h.overtaken (hbuildable 0 (Nat.le_refl 0)) (hovertaken 0 Nat.one_pos) 0 built
    refine ⟨document', hnext.opened, hinstalled, ?_, by simpa [buildsOfAttempt] using hbuilds⟩
    rw [hattempt, attempt, staleFailure_of_open hnext.opened, hnext.uncancelled, hversion]
    simp [afterBuilds]
  | succ n ih =>
    obtain ⟨document', hnext, hversion, hinstalled, hattempt, hbuilds⟩ :=
      h.overtaken (hbuildable 0 (Nat.zero_le _)) (hovertaken 0 (Nat.succ_pos _)) (n + 1) built
    obtain ⟨latest, hfind, hkept, hout, hcount⟩ :=
      ih hnext (fun i hi => hbuildable (i + 1) (Nat.succ_le_succ hi))
        (fun i hi => hovertaken (i + 1) (Nat.succ_lt_succ hi)) (some document.version)
    rw [hversion, Nat.add_assoc, Nat.add_assoc, ← sum_changesDuring_succ,
      ← sum_changesDuring_succ] at hout
    exact ⟨latest, hfind, hkept.trans hinstalled, hattempt.trans hout, by omega⟩

/-- A document of a reachable session, and a call that is not cancelled. If the document is up to
date, its virtual document is returned without a build. Otherwise, as long as the builds that the
call comes to can be made and no edit during them closes the document or cancels the call: the first
of three builds that no change overtakes is the last one, and its virtual document, made from the
document as it is then, is installed and returned; and if changes overtake all three, nothing is
installed, and the failure names the version built last and the current one. -/
theorem virtualDocument_retries (h : Reachable events c.session)
    (hfind : c.session.find? file = some document) (hcancelled : c.cancelled = false) :
    (∀ d, document.current? = some d →
      c.virtualDocument file = (.ok d, c) ∧ c.buildsOfVirtualDocument file = 0) ∧
    (document.current? = none →
      (∀ n < 3, c.Overtaken file n → (c.afterBuilds file n).Buildable file) →
      (∀ k < 3, c.Overtaken file k → c.changesDuring file k = 0 →
        ∃ d latest, c.virtualDocument file = (.ok d, (c.afterBuilds file (k + 1)).install d) ∧
          c.buildsOfVirtualDocument file = k + 1 ∧
          d.version = document.version + ∑ n ∈ Finset.range k, c.changesDuring file n ∧
          (c.virtualDocument file).2.session.find? file = some latest ∧
          latest.version = d.version ∧ latest.installed = some d ∧
          VirtualDocument.build? file.original latest.text latest.version
            latest.language = some d) ∧
      (c.Overtaken file 3 →
        c.virtualDocument file =
          (.error (.busy file
            (document.version + c.changesDuring file 0 + c.changesDuring file 1)
            (document.version + c.changesDuring file 0 + c.changesDuring file 1 +
              c.changesDuring file 2)), c.afterBuilds file 3) ∧
          c.buildsOfVirtualDocument file = 3 ∧
          (c.afterBuilds file 3).session.installed? file = c.session.installed? file)) := by
  have hattempts : c.virtualDocument file = attempt file 3 none c := by
    simp [virtualDocument, hfind, rebuildAttempts]
  have hcount : c.buildsOfVirtualDocument file = buildsOfAttempt file 3 c := by
    simp [buildsOfVirtualDocument, hfind, rebuildAttempts]
  rw [hattempts, hcount]
  refine ⟨fun d hcurrent => ?_, fun hstale hbuildable => ?_⟩
  · have hrebuild : c.rebuild file = (.ok (.installed d), c) := by
      simp [rebuild, hfind, hcurrent]
    simp [attempt, buildsOfAttempt, buildsOfRebuild, hcancelled, hrebuild, hfind, hcurrent]
  · have hawaits : c.Awaits file document := ⟨⟨events, h.explains⟩, hfind, hstale, hcancelled⟩
    refine ⟨fun k hk hovertaken hquiet => ?_, fun hovertaken => ?_⟩
    · obtain ⟨d, latest, hlatest, hversion, hbuild, hout, hbuilds⟩ :=
        hawaits.attempt_installs (fun n hn => hbuildable n (by omega) fun i hi =>
          hovertaken i (by omega)) hovertaken hquiet hk none
      have hd := VirtualDocument.version_of_build? hbuild
      have hinstalled : ((c.afterBuilds file (k + 1)).install d).session.find? file =
          some { latest with installed := some d } := by
        rw [install, Session.find?_modify, VirtualDocument.id_of_build? hbuild, hlatest]
        simp
      exact ⟨d, { latest with installed := some d }, hout, hbuilds, hd.trans hversion,
        hout ▸ hinstalled, hd.symm, rfl, hbuild⟩
    · obtain ⟨latest, hlatest, hkept, hout, hbuilds⟩ :=
        hawaits.attempt_busy (n := 2) (fun i hi => hbuildable i (by omega) fun j hj =>
          hovertaken j (by omega)) hovertaken none
      refine ⟨?_, hbuilds, ?_⟩
      · simpa [Finset.sum_range_succ, Nat.add_assoc] using hout
      · simp [Session.installed?, hlatest, hfind, hkept]

/-- Changes of a document, under either of its identifiers, overtake all three builds. -/
theorem virtualDocument_retries_overtaken :
    let opened := Operation.run ⟨.new {}, false, [], []⟩ (.openDocument "<p/>".toList .markup)
    let changed := Operation.run opened (.change ⟨0, false⟩ "<b/>".toList)
    let first := Edit.change ⟨0, false⟩ "<i/>".toList
    let second := Edit.change ⟨0, true⟩ "<u/>".toList
    let c : Call := { changed with
      builds := [(⟨0, false⟩, [[first], [first, second], [second], [first]])] }
    c.virtualDocument ⟨0, true⟩ =
        (.error (.busy ⟨0, true⟩ 5 6), c.afterBuilds ⟨0, true⟩ 3) ∧
      (c.afterBuilds ⟨0, true⟩ 3).builds = [(⟨0, false⟩, [[first]])] ∧
      c.buildsOfVirtualDocument ⟨0, true⟩ = 3 := by
  intro opened changed first second c
  have hopened : Evolves (.new {}) _ opened.session :=
    .tail (c := ⟨.new {}, false, [], []⟩) (.refl _) (.openDocument "<p/>".toList .markup)
  have hreachable : Reachable _ c.session :=
    ⟨{}, .tail hopened (.change ⟨0, false⟩ "<b/>".toList)⟩
  have hdocument : (c.session.find? ⟨0, true⟩).any fun document =>
      document.version = 2 ∧ document.current? = none := by decide +kernel
  have hspared : (List.range 3).all fun n =>
      ((c.afterBuilds ⟨0, true⟩ n).nextBuild ⟨0, true⟩).1.all (Edit.spares ⟨0, true⟩) &&
        ((c.afterBuilds ⟨0, true⟩ n).session.find? ⟨0, true⟩).all (·.language = .markup) := by
    decide +kernel
  have hchanges : (List.range 3).map (c.changesDuring ⟨0, true⟩) = [1, 2, 1] := by decide +kernel
  have hrest : (c.afterBuilds ⟨0, true⟩ 3).builds = [(⟨0, false⟩, [[first]])] := by decide +kernel
  obtain ⟨document, hfind, hdocument⟩ := (Option.any_eq_true _ _).1 hdocument
  obtain ⟨hversion, hstale⟩ := of_decide_eq_true hdocument
  have hbuildable : ∀ n < 3, (c.afterBuilds ⟨0, true⟩ n).Buildable ⟨0, true⟩ := by
    intro n hn
    have hn := List.all_eq_true.1 hspared n (List.mem_range.2 hn)
    obtain ⟨hspares, hmarkup⟩ := (Bool.and_eq_true _ _).mp hn
    refine ⟨List.all_eq_true.1 hspares, fun document' hfind' => ?_⟩
    rw [hfind'] at hmarkup
    rw [of_decide_eq_true hmarkup]
    exact ⟨_, rfl⟩
  obtain ⟨hzero, hone, htwo⟩ : c.changesDuring ⟨0, true⟩ 0 = 1 ∧
      c.changesDuring ⟨0, true⟩ 1 = 2 ∧ c.changesDuring ⟨0, true⟩ 2 = 1 := by
    simpa [List.range_succ] using hchanges
  have hovertaken : c.Overtaken ⟨0, true⟩ 3 := by
    intro n hn
    have : n = 0 ∨ n = 1 ∨ n = 2 := by omega
    rcases this with rfl | rfl | rfl <;> omega
  obtain ⟨hout, hbuilds, -⟩ := ((virtualDocument_retries hreachable hfind rfl).2 hstale
    fun n hn _ => hbuildable n hn).2 hovertaken
  rw [hversion, hzero, hone, htwo] at hout
  exact ⟨hout, hrest, hbuilds⟩

end Call

end TemplateProjection
