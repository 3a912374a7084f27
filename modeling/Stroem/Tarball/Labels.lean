import Stroem.Tarball
import Stroem.Foundation.Runs
import Stroem.Foundation.Text

/-!
# What a label promises

An archive labelled with a revision should hold the files of its commit.  Archives of pinned
checkouts do, and the cache only hands on what was sent before under the same label.  What is
left is the archive of the live clone: it holds what the clone held at each path when that path
was read.
-/

namespace Stroem.Tarball

open Foundation

variable {revision : String}

/-- Apart from `.git`, the archive holds the files of the commit that the revision names and the
libraries. -/
def Faithful (server : Server) (revision : String) (archive : Archive) : Prop :=
  server.commitFiles revision = some archive.files ∧ archive.libraries = server.overlay

def StoredFor (s : State) (revision : String) (archive : Archive) : Prop :=
  s.cache (sanitizeRevision revision) = some archive ∨
    s.cache (sanitizeRevision (pinnedCacheKey revision)) = some archive

structure LabelsTrue (server : Server) (s : State) : Prop where
  responses : ∀ revision archive, (some revision, archive) ∈ s.responses →
    Faithful server revision archive
  cached : ∀ revision archive, (normalizeCommit revision).isSome → StoredFor s revision archive →
    Faithful server revision archive

/-! ## Names of cached files -/

private theorem isAlphanum_of_isHexDigit {c : Char} (h : isHexDigit c = true) :
    c.isAlphanum = true := by
  simp only [isHexDigit, Bool.or_eq_true, Bool.and_eq_true, decide_eq_true_eq, Char.le_def,
    UInt32.le_iff_toNat_le, isDigit_iff] at h
  rw [isAlphanum_iff]
  change (_ ∨ 97 ≤ c.toNat ∧ c.toNat ≤ 102) ∨ 65 ≤ c.toNat ∧ c.toNat ≤ 70 at h
  omega

theorem isHexDigit_of_normalizeCommit
    (h : (normalizeCommit revision).isSome) : ∀ c ∈ revision.toList, isHexDigit c = true := by
  unfold normalizeCommit at h
  split at h
  · rename_i hhex
    exact List.all_eq_true.mp hhex.2
  · cases h

theorem eq_of_sanitizeRevision_eq {name : String} (h : sanitizeRevision revision = name)
    (hname : '_' ∉ name.toList) : revision = name := by
  unfold sanitizeRevision at h
  dsimp only at h
  split at h
  · exact absurd (by rw [← h]; decide) hname
  split at h
  · exact absurd (by rw [← h]; decide) hname
  subst h
  rw [String.toList_ofList] at hname
  have hmap : (revision.toList.map fun c =>
      if c.isAlphanum || c == '-' || c == '_' || c == '.' then c else '_') = revision.toList := by
    conv_rhs => rw [← List.map_id revision.toList]
    refine List.map_congr_left fun c hc => ?_
    split
    · rfl
    · rename_i hbad
      refine absurd (List.mem_map.mpr ⟨c, hc, ?_⟩) hname
      rw [if_neg hbad]
  rw [hmap, String.ofList_toList]

private theorem sanitizeRevision_of_allowed
    (h : ∀ c ∈ revision.toList, (c.isAlphanum || c == '-' || c == '_' || c == '.') = true)
    (hdots : '.' ∉ revision.toList) : sanitizeRevision revision = revision := by
  have hmap : (revision.toList.map fun c =>
      if c.isAlphanum || c == '-' || c == '_' || c == '.' then c else '_') = revision.toList := by
    conv_rhs => rw [← List.map_id revision.toList]
    exact List.map_congr_left fun c hc => if_pos (h c hc)
  unfold sanitizeRevision
  dsimp only
  rw [hmap, String.ofList_toList, if_neg, if_neg]
  · rintro rfl
    exact hdots (by decide)
  · rintro rfl
    exact hdots (by decide)

private theorem not_mem_of_isHexDigit {c : Char}
    (h : (normalizeCommit revision).isSome) (hc : isHexDigit c = false) :
    c ∉ revision.toList := by
  intro hmem
  rw [isHexDigit_of_normalizeCommit h c hmem] at hc
  cases hc

theorem sanitizeRevision_commit (h : (normalizeCommit revision).isSome) :
    sanitizeRevision revision = revision := by
  refine sanitizeRevision_of_allowed (fun c hc => ?_) (not_mem_of_isHexDigit h (by decide))
  simp [isAlphanum_of_isHexDigit (isHexDigit_of_normalizeCommit h c hc)]

private theorem toList_pinnedCacheKey (revision : String) :
    (pinnedCacheKey revision).toList = 'p' :: 'i' :: 'n' :: '-' :: revision.toList := by
  simp [pinnedCacheKey]

theorem sanitizeRevision_pinnedCacheKey
    (h : (normalizeCommit revision).isSome) :
    sanitizeRevision (pinnedCacheKey revision) = pinnedCacheKey revision := by
  refine sanitizeRevision_of_allowed (fun c hc => ?_) ?_
  · rw [toList_pinnedCacheKey] at hc
    simp only [List.mem_cons] at hc
    rcases hc with rfl | rfl | rfl | rfl | hc
    · decide
    · decide
    · decide
    · decide
    · simp [isAlphanum_of_isHexDigit (isHexDigit_of_normalizeCommit h c hc)]
  · have hdot := not_mem_of_isHexDigit (c := '.') h (by decide)
    simp [toList_pinnedCacheKey, hdot]

def NamedFor (revision name : String) : Prop :=
  name = sanitizeRevision revision ∨ name = sanitizeRevision (pinnedCacheKey revision)

private theorem underscore_not_mem (h : (normalizeCommit revision).isSome) :
    '_' ∉ revision.toList ∧ '_' ∉ (pinnedCacheKey revision).toList := by
  have hrev := not_mem_of_isHexDigit (c := '_') h (by decide)
  exact ⟨hrev, by simp [toList_pinnedCacheKey, hrev]⟩

private theorem pinnedCacheKey_ne {other : String}
    (h : (normalizeCommit revision).isSome) : pinnedCacheKey other ≠ revision := by
  intro heq
  refine not_mem_of_isHexDigit (c := 'p') h (by decide) ?_
  rw [← heq, toList_pinnedCacheKey]
  exact List.mem_cons_self

private theorem pinnedCacheKey_inj {other : String}
    (h : pinnedCacheKey revision = pinnedCacheKey other) : revision = other := by
  have hlist := congrArg String.toList h
  simp only [toList_pinnedCacheKey, List.cons.injEq, true_and] at hlist
  exact String.toList_inj.mp hlist

theorem eq_of_namedFor_pinned {other : String} (h : (normalizeCommit other).isSome)
    (hname : NamedFor other (sanitizeRevision (pinnedCacheKey revision))) : revision = other := by
  obtain ⟨hunder, hunder'⟩ := underscore_not_mem h
  rcases hname with hname | hname
  · rw [sanitizeRevision_commit h] at hname
    exact absurd (eq_of_sanitizeRevision_eq hname hunder) (pinnedCacheKey_ne h)
  · rw [sanitizeRevision_pinnedCacheKey h] at hname
    exact pinnedCacheKey_inj (eq_of_sanitizeRevision_eq hname hunder')

theorem eq_of_namedFor_live {other : String} (hrev : (normalizeCommit revision).isSome)
    (h : (normalizeCommit other).isSome)
    (hname : NamedFor other (sanitizeRevision revision)) : revision = other := by
  obtain ⟨hunder, hunder'⟩ := underscore_not_mem h
  rcases hname with hname | hname
  · rw [sanitizeRevision_commit h] at hname
    exact eq_of_sanitizeRevision_eq hname hunder
  · rw [sanitizeRevision_pinnedCacheKey h] at hname
    exact absurd (eq_of_sanitizeRevision_eq hname hunder').symm (pinnedCacheKey_ne hrev)

/-! ## What holds in every state -/

section Invariant

variable {server : Server} {s t : State}

def Download.Sound (server : Server) : Download → Prop
  | .gates (some revision) _ => (server.commitFiles revision).isSome
  | .labels (some revision) _ => (server.commitFiles revision).isSome
  | .looks revision _ => (server.commitFiles revision).isSome
  | .archives (some revision) _ => (server.commitFiles revision).isSome
  | _ => True

structure Sound (server : Server) (s : State) : Prop where
  revision : ∀ revision, s.revision = some revision → (server.commitFiles revision).isSome
  loaded : ∀ oid, s.load = .loaded oid → (server.commitFiles oid).isSome
  downloads : ∀ d, (s.downloads d).Sound server
  puts : ∀ key archive, (key, archive) ∈ s.puts →
    ∃ revision, (normalizeCommit revision).isSome ∧
      (key = revision ∨ key = pinnedCacheKey revision) ∧
      (some revision, archive) ∈ s.responses
  cache : ∀ name archive, s.cache name = some archive →
    ∃ revision, (normalizeCommit revision).isSome ∧ NamedFor revision name ∧
      (some revision, archive) ∈ s.responses

def ResponsesTrue (server : Server) (s : State) : Prop :=
  ∀ revision archive, (some revision, archive) ∈ s.responses → Faithful server revision archive

theorem normalizeCommit_isSome
    (h : (server.commitFiles revision).isSome) : (normalizeCommit revision).isSome := by
  unfold Server.commitFiles at h
  cases hn : normalizeCommit revision with
  | none =>
    rw [hn] at h
    cases h
  | some _ => rfl

theorem Sound.getRevision (h : Sound server s)
    (hr : s.getRevision = some revision) : (server.commitFiles revision).isSome := by
  unfold State.getRevision at hr
  split at hr
  · cases hr
  · exact h.revision revision hr

theorem Sound.initial : Sound server initial := by
  refine ⟨?_, ?_, fun _ => trivial, ?_, ?_⟩
  · intro revision hr
    cases hr
  · intro oid hload
    cases hload
  · intro key archive hmem
    cases hmem
  · intro name archive hcache
    cases hcache

theorem Sound.setDownload (h : Sound server s) {x : Download} (hx : x.Sound server) (d : Nat) :
    Sound server (s.setDownload d x) where
  revision := h.revision
  loaded := h.loaded
  downloads := by
    intro e
    by_cases he : e = d
    · subst he
      simpa [State.setDownload] using hx
    · simpa [State.setDownload, Function.update_of_ne he] using h.downloads e
  puts := h.puts
  cache := h.cache

theorem Sound.respond (h : Sound server s) (d : Nat) {label key : Option String}
    {archive : Archive} (hkey : ∀ k, key = some k → ∃ revision, label = some revision ∧
      (normalizeCommit revision).isSome ∧ (k = revision ∨ k = pinnedCacheKey revision)) :
    Sound server (s.respond d label archive key) where
  revision := h.revision
  loaded := h.loaded
  downloads := (h.setDownload (x := .done) trivial d).downloads
  puts := by
    intro k stored hmem
    rcases List.mem_append.mp hmem with hmem | hmem
    · obtain ⟨revision, hcommit, hname, hsent⟩ := h.puts k stored hmem
      exact ⟨revision, hcommit, hname, List.mem_append_left _ hsent⟩
    · obtain ⟨k', rfl, heq⟩ : ∃ k', key = some k' ∧ (k', archive) = (k, stored) := by
        simpa [Option.mem_toList] using hmem
      obtain ⟨rfl, rfl⟩ := Prod.mk.inj heq
      obtain ⟨revision, rfl, hcommit, hname⟩ := hkey k' rfl
      exact ⟨revision, hcommit, hname, List.mem_append_right _ List.mem_cons_self⟩
  cache := by
    intro name stored hcache
    obtain ⟨revision, hcommit, hname, hsent⟩ := h.cache name stored hcache
    exact ⟨revision, hcommit, hname, List.mem_append_left _ hsent⟩

theorem responsesTrue_respond {d : Nat} {label key : Option String} {archive : Archive} :
    ResponsesTrue server (s.respond d label archive key) ↔
      ResponsesTrue server s ∧ ∀ revision, label = some revision →
        Faithful server revision archive := by
  constructor
  · intro h
    refine ⟨fun revision sent hsent => h revision sent (List.mem_append_left _ hsent), ?_⟩
    rintro revision rfl
    exact h revision archive (List.mem_append_right _ List.mem_cons_self)
  · rintro ⟨hs, hlabel⟩ revision sent hsent
    rcases List.mem_append.mp hsent with hsent | hsent
    · exact hs revision sent hsent
    · obtain ⟨hrev, rfl⟩ := Prod.mk.inj (List.mem_singleton.mp hsent)
      exact hlabel revision hrev.symm

theorem labelsTrue_iff (h : Sound server s) :
    LabelsTrue server s ↔ ResponsesTrue server s := by
  refine ⟨fun hl => hl.responses, fun hr => ⟨hr, ?_⟩⟩
  intro revision archive hcommit hstored
  rcases hstored with hstored | hstored
  · obtain ⟨other, hother, hname, hsent⟩ := h.cache _ archive hstored
    obtain rfl := eq_of_namedFor_live hcommit hother hname
    exact hr revision archive hsent
  · obtain ⟨other, hother, hname, hsent⟩ := h.cache _ archive hstored
    obtain rfl := eq_of_namedFor_pinned hother hname
    exact hr revision archive hsent

/-! ## Loads -/

private theorem commitFiles_of_repository {oid : String} {files : Files}
    (hn : normalizeCommit oid = some oid) (hf : server.repository oid = some files) :
    (server.commitFiles oid).isSome := by
  simp [Server.commitFiles, hn, hf]

theorem Sound.reset (h : Sound server s) {oid : String} {untracked : List String}
    (hs : s.reset server oid untracked = some t) :
    Sound server t ∧ t.responses = s.responses := by
  unfold State.reset at hs
  split at hs
  · rename_i files hfiles
    split at hs
    · rename_i hguard
      cases hs
      refine ⟨⟨h.revision, ?_, h.downloads, h.puts, h.cache⟩, rfl⟩
      intro oid' hload
      obtain rfl : oid = oid' := by injection hload
      exact commitFiles_of_repository hguard.2 hfiles
    · cases hs
  · cases hs

theorem Sound.publish (h : Sound server s) (hs : s.publish = some t) :
    Sound server t ∧ t.responses = s.responses := by
  unfold State.publish at hs
  split at hs
  · rename_i oid hload
    cases hs
    refine ⟨⟨?_, ?_, h.downloads, h.puts, h.cache⟩, rfl⟩
    · rintro revision hrev
      obtain rfl : oid = revision := by injection hrev
      exact h.loaded oid hload
    · intro oid' hidle
      cases hidle
  · cases hs

theorem Sound.restart (h : Sound server s) : Sound server s.restart where
  revision := by
    intro revision hrev
    cases hrev
  loaded := by
    intro oid hload
    cases hload
  downloads := by
    intro d
    simp only [State.restart]
    split <;> trivial
  puts := by
    intro key archive hmem
    cases hmem
  cache := h.cache

/-! ## Downloads -/

private theorem sound_servePinned (revision : String) (ifNoneMatch : Option String) :
    (servePinned revision ifNoneMatch).Sound server := by
  unfold servePinned
  split <;> trivial

theorem Sound.advance (h : Sound server s) {d : Nat} (hs : s.advance d = some t) :
    Sound server t ∧ t.responses = s.responses := by
  have hphase := h.downloads d
  unfold State.advance at hs
  split at hs
  · cases hs
    exact ⟨h.setDownload (by trivial) d, rfl⟩
  · cases hs
    refine ⟨h.setDownload ?_ d, rfl⟩
    split
    · trivial
    · exact sound_servePinned _ _
  · cases hs
    refine ⟨h.setDownload ?_ d, rfl⟩
    split
    · rename_i hcurrent
      exact h.getRevision hcurrent
    · exact sound_servePinned _ _
  · rename_i revision _ hgate
    cases hs
    refine ⟨h.setDownload ?_ d, rfl⟩
    rw [hgate] at hphase
    split
    · cases revision with
      | none => trivial
      | some revision => exact hphase
    · trivial
  · rename_i revision _ hlabel
    cases hs
    refine ⟨h.setDownload ?_ d, rfl⟩
    rw [hlabel] at hphase
    split
    · trivial
    · exact hphase
  · cases hs
    refine ⟨h.setDownload ?_ d, rfl⟩
    split
    · trivial
    · cases hcurrent : s.getRevision with
      | none => trivial
      | some revision => exact h.getRevision hcurrent
  · cases hs

private theorem faithful_of_cached (h : Sound server s) (hr : ResponsesTrue server s)
    {name : String} {archive : Archive}
    (hname : ∀ other, (normalizeCommit other).isSome → NamedFor other name → revision = other)
    (hcache : s.cache name = some archive) : Faithful server revision archive := by
  obtain ⟨other, hother, hnamed, hsent⟩ := h.cache name archive hcache
  obtain rfl := hname other hother hnamed
  exact hr revision archive hsent

private theorem eq_some_of_ite {archive : Archive} {readable : Bool} {cached : Option Archive}
    (h : (if readable then cached else none) = some archive) : cached = some archive := by
  cases readable with
  | true => simpa using h
  | false => cases h

theorem Sound.lookUp (h : Sound server s) {d : Nat} {readable : Bool}
    (hs : s.lookUp d readable = some t) :
    Sound server t ∧ (ResponsesTrue server s → ResponsesTrue server t) := by
  have hphase := h.downloads d
  have hnone : ∀ (label : Option String) (k : String), (none : Option String) = some k →
      ∃ revision, label = some revision ∧ (normalizeCommit revision).isSome ∧
        (k = revision ∨ k = pinnedCacheKey revision) := by
    intro label k hk
    cases hk
  unfold State.lookUp at hs
  split at hs
  · rename_i revision current hlooks
    rw [hlooks] at hphase
    split at hs
    · rename_i archive hhit
      cases hs
      refine ⟨h.respond d (hnone _), fun hr => responsesTrue_respond.mpr ⟨hr, ?_⟩⟩
      rintro label hlabel
      cases hlabel
      exact faithful_of_cached h hr
        (fun other => eq_of_namedFor_live (normalizeCommit_isSome hphase)) (eq_some_of_ite hhit)
    · cases hs
      refine ⟨h.setDownload ?_ d, fun hr => hr⟩
      split
      · exact hphase
      · trivial
  · rename_i revision hlooks
    split at hs
    · rename_i archive hhit
      cases hs
      refine ⟨h.respond d (hnone _), fun hr => responsesTrue_respond.mpr ⟨hr, ?_⟩⟩
      rintro label hlabel
      cases hlabel
      exact faithful_of_cached h hr (fun other => eq_of_namedFor_pinned) (eq_some_of_ite hhit)
    · cases hs
      exact ⟨h.setDownload (by trivial) d, fun hr => hr⟩
  · cases hs

theorem Sound.checkOut (h : Sound server s) {d : Nat} (hs : s.checkOut server d = some t) :
    Sound server t ∧ (ResponsesTrue server s → ResponsesTrue server t) := by
  unfold State.checkOut at hs
  split at hs
  · rename_i revision _
    split at hs
    · rename_i files hfiles
      cases hs
      refine ⟨h.respond d ?_, fun hr => responsesTrue_respond.mpr ⟨hr, ?_⟩⟩
      · intro k hk
        have hcommit : (normalizeCommit revision).isSome :=
          normalizeCommit_isSome (by rw [hfiles]; rfl)
        exact ⟨revision, rfl, hcommit, Or.inr (Option.some.inj hk).symm⟩
      · rintro label hlabel
        cases hlabel
        exact ⟨hfiles, rfl⟩
    · cases hs
  · cases hs

theorem Sound.read (h : Sound server s) {d : Nat} {path : String} (hs : s.read d path = some t) :
    Sound server t ∧ t.responses = s.responses := by
  have hphase := h.downloads d
  unfold State.read at hs
  split at hs
  · rename_i label read hreads
    rw [hreads] at hphase
    split at hs
    · cases hs
      refine ⟨h.setDownload ?_ d, rfl⟩
      cases label with
      | none => trivial
      | some revision => exact hphase
    · cases hs
  · cases hs

def ArchivesCommit (server : Server) (s : State) : Event → Prop
  | .archives d => ∀ revision read files, s.downloads d = .archives (some revision) read →
      server.commitFiles revision = some files → ∀ path, archived read s.dir path = files path
  | _ => True

theorem Sound.archive (h : Sound server s) {d : Nat} (hs : s.archive server d = some t) :
    Sound server t ∧ (ResponsesTrue server s →
      (ResponsesTrue server t ↔ ArchivesCommit server s (.archives d))) := by
  have hphase := h.downloads d
  unfold State.archive at hs
  split at hs
  · rename_i label read hreads
    rw [hreads] at hphase
    cases hs
    refine ⟨h.respond d ?_, fun hr => responsesTrue_respond.trans ?_⟩
    · rintro k rfl
      exact ⟨k, rfl, normalizeCommit_isSome hphase, Or.inl rfl⟩
    · constructor
      · rintro ⟨-, hlabel⟩ revision read' files hreads' hfiles path
        rw [hreads] at hreads'
        obtain ⟨rfl, rfl⟩ : label = some revision ∧ read = read' := by simpa using hreads'
        have hsame := (hlabel revision rfl).1.symm.trans hfiles
        exact congrFun (Option.some.inj hsame) path
      · intro hcommit
        refine ⟨hr, ?_⟩
        rintro revision rfl
        obtain ⟨files, hfiles⟩ := Option.isSome_iff_exists.mp hphase
        have hsame : archived read s.dir = files :=
          funext (hcommit revision read files hreads hfiles)
        exact ⟨hfiles.trans (congrArg some hsame.symm), rfl⟩
  · cases hs

/-! ## Steps -/

theorem Sound.store (h : Sound server s) {put : Nat} (hs : s.store put = some t) :
    Sound server t ∧ t.responses = s.responses := by
  unfold State.store at hs
  split at hs
  · rename_i key archive hput
    cases hs
    refine ⟨⟨h.revision, h.loaded, h.downloads, ?_, ?_⟩, rfl⟩
    · exact fun k stored hmem => h.puts k stored (List.mem_of_mem_eraseIdx hmem)
    · intro name stored hcache
      dsimp only at hcache
      by_cases hname : name = sanitizeRevision key
      · subst hname
        rw [Function.update_self] at hcache
        cases hcache
        obtain ⟨revision, hcommit, hkey, hsent⟩ := h.puts key archive (List.mem_of_getElem? hput)
        refine ⟨revision, hcommit, ?_, hsent⟩
        rcases hkey with rfl | rfl
        · exact Or.inl rfl
        · exact Or.inr rfl
      · rw [Function.update_of_ne hname] at hcache
        exact h.cache name stored hcache
  · cases hs

theorem Sound.evict (h : Sound server s) (name : String) :
    Sound server { s with cache := Function.update s.cache name none } where
  revision := h.revision
  loaded := h.loaded
  downloads := h.downloads
  puts := h.puts
  cache := by
    intro name' archive hcache
    dsimp only at hcache
    by_cases hname : name' = name
    · subst hname
      rw [Function.update_self] at hcache
      cases hcache
    · rw [Function.update_of_ne hname] at hcache
      exact h.cache name' archive hcache

private theorem responsesTrue_of_eq (h : t.responses = s.responses) (hr : ResponsesTrue server s) :
    ResponsesTrue server t := by
  unfold ResponsesTrue
  rw [h]
  exact hr

theorem Sound.step (h : Sound server s) {e : Event} (hs : step server s e = some t) :
    Sound server t ∧ (ResponsesTrue server s →
      (ResponsesTrue server t ↔ ArchivesCommit server s e)) := by
  have hkept : ∀ {e : Event}, (∀ d, e ≠ .archives d) →
      Sound server t ∧ (ResponsesTrue server s → ResponsesTrue server t) →
      Sound server t ∧ (ResponsesTrue server s →
        (ResponsesTrue server t ↔ ArchivesCommit server s e)) := by
    rintro e he ⟨hsound, hr⟩
    refine ⟨hsound, fun hrs => iff_of_true (hr hrs) ?_⟩
    cases e with
    | archives d => exact absurd rfl (he d)
    | _ => trivial
  have hsame : Sound server t ∧ t.responses = s.responses →
      Sound server t ∧ (ResponsesTrue server s → ResponsesTrue server t) :=
    fun hst => ⟨hst.1, responsesTrue_of_eq hst.2⟩
  cases e with
  | archives d => exact h.archive hs
  | fetches =>
    refine hkept (by simp) (hsame ?_)
    simp only [Tarball.step] at hs
    split at hs
    · cases hs
      refine ⟨⟨h.revision, ?_, h.downloads, h.puts, h.cache⟩, rfl⟩
      intro oid hload
      cases hload
    · cases hs
  | writes path content =>
    refine hkept (by simp) (hsame ?_)
    simp only [Tarball.step] at hs
    split at hs
    · cases hs
      exact ⟨⟨h.revision, h.loaded, h.downloads, h.puts, h.cache⟩, rfl⟩
    · cases hs
  | resets oid untracked => exact hkept (by simp) (hsame (h.reset hs))
  | publishes => exact hkept (by simp) (hsame (h.publish hs))
  | fails =>
    refine hkept (by simp) (hsame ?_)
    simp only [Tarball.step] at hs
    split at hs
    · cases hs
    · cases hs
      refine ⟨⟨h.revision, ?_, h.downloads, h.puts, h.cache⟩, rfl⟩
      intro oid hload
      cases hload
  | requests d revision ifNoneMatch =>
    refine hkept (by simp) (hsame ?_)
    simp only [Tarball.step] at hs
    split at hs
    · cases hs
      exact ⟨h.setDownload (by trivial) d, rfl⟩
    · cases hs
  | advances d => exact hkept (by simp) (hsame (h.advance hs))
  | looksUp d readable => exact hkept (by simp) (h.lookUp hs)
  | checksOut d => exact hkept (by simp) (h.checkOut hs)
  | reads d path => exact hkept (by simp) (hsame (h.read hs))
  | aborts d =>
    refine hkept (by simp) (hsame ?_)
    simp only [Tarball.step] at hs
    split at hs
    · cases hs
    · cases hs
      exact ⟨h.setDownload (by trivial) d, rfl⟩
  | stores put => exact hkept (by simp) (hsame (h.store hs))
  | losesPut put =>
    refine hkept (by simp) (hsame ?_)
    simp only [Tarball.step] at hs
    split at hs
    · cases hs
      refine ⟨⟨h.revision, h.loaded, h.downloads, ?_, h.cache⟩, rfl⟩
      exact fun k stored hmem => h.puts k stored (List.mem_of_mem_eraseIdx hmem)
    · cases hs
  | evicts name =>
    refine hkept (by simp) (hsame ?_)
    cases hs
    exact ⟨h.evict name, rfl⟩
  | restarts =>
    refine hkept (by simp) (hsame ?_)
    cases hs
    exact ⟨h.restart, rfl⟩

end Invariant

end Stroem.Tarball
