import Mathlib.Logic.Function.Basic

/-!
# Workspace tarballs

The server archives a git workspace out of its live clone, or out of an immutable checkout of one
commit, and caches the archives by revision.  A load fetches, resets the clone file by file to the
fetched commit and publishes the new revision afterwards.  A download reads the health, the
revision and the files at different moments.  One event below is one of these reads or writes.
-/

namespace Stroem.Tarball

abbrev Files := String → Option String

structure Archive where
  files : Files
  dotGit : Bool
  libraries : List (String × Files)

structure Server where
  repository : String → Option Files
  libraries : List (String × Option Files)

def Server.overlay (server : Server) : List (String × Files) :=
  server.libraries.filterMap fun library => library.2.map fun files => (library.1, files)

def isHexDigit (c : Char) : Bool :=
  c.isDigit || ('a' ≤ c && c ≤ 'f') || ('A' ≤ c && c ≤ 'F')

def normalizeCommit (commit : String) : Option String :=
  if commit.utf8ByteSize = 40 ∧ commit.toList.all isHexDigit then
    some (String.ofList (commit.toList.map Char.toLower))
  else none

def Server.commitFiles (server : Server) (revision : String) : Option Files :=
  (normalizeCommit revision).bind server.repository

def sanitizeRevision (revision : String) : String :=
  let sanitized := String.ofList (revision.toList.map fun c =>
    if c.isAlphanum || c == '-' || c == '_' || c == '.' then c else '_')
  if sanitized = ".." then "_dotdot_"
  else if sanitized = "." then "_dot_"
  else sanitized

def pinnedCacheKey (revision : String) : String := "pin-" ++ revision

def etagMatches (ifNoneMatch : Option String) (revision : String) : Bool :=
  ifNoneMatch.any fun header =>
    ((header.toList.dropWhile (· == '\x22')).reverse.dropWhile (· == '\x22')).reverse ==
      revision.toList

inductive Load where
  | idle
  | resetting
  | loaded (oid : String)
  deriving DecidableEq

inductive Download where
  | unused
  | asks (revision ifNoneMatch : Option String)
  | compares (revision : String) (ifNoneMatch : Option String)
  | gates (revision ifNoneMatch : Option String)
  | labels (revision ifNoneMatch : Option String)
  | looks (revision : String) (current : Option String)
  | looksPinned (revision : String)
  | checksOut (revision : String)
  | archives (label : Option String) (read : List (String × Option String))
  | done
  deriving DecidableEq

structure State where
  dir : Files := fun _ => none
  revision : Option String := none
  error : Bool := true
  load : Load := .idle
  downloads : Nat → Download := fun _ => .unused
  puts : List (String × Archive) := []
  cache : String → Option Archive := fun _ => none
  responses : List (Option String × Archive) := []

inductive Event where
  | fetches
  | writes (path : String) (content : Option String)
  | resets (oid : String) (untracked : List String)
  | publishes
  | fails
  | requests (download : Nat) (revision ifNoneMatch : Option String)
  | advances (download : Nat)
  | looksUp (download : Nat) (readable : Bool)
  | checksOut (download : Nat)
  | reads (download : Nat) (path : String)
  | archives (download : Nat)
  | aborts (download : Nat)
  | stores (put : Nat)
  | losesPut (put : Nat)
  | evicts (name : String)
  | restarts
  deriving DecidableEq

namespace State

def isHealthy (s : State) : Bool := !s.error

def getRevision (s : State) : Option String := if s.error then none else s.revision

def setDownload (s : State) (download : Nat) (phase : Download) : State :=
  { s with downloads := Function.update s.downloads download phase }

def respond (s : State) (download : Nat) (label : Option String) (archive : Archive)
    (key : Option String) : State :=
  { s.setDownload download .done with
    responses := s.responses ++ [(label, archive)]
    puts := s.puts ++ (key.map fun key => (key, archive)).toList }

end State

/-! ## Loads -/

def resetFiles (files dir : Files) (untracked : List String) : Files := fun path =>
  if (files path).isNone && untracked.contains path then dir path else files path

def State.reset (server : Server) (s : State) (oid : String) (untracked : List String) :
    Option State :=
  match server.repository oid with
  | some files =>
    if s.load = .resetting ∧ normalizeCommit oid = some oid then
      some { s with dir := resetFiles files s.dir untracked, load := .loaded oid }
    else none
  | none => none

def State.publish (s : State) : Option State :=
  match s.load with
  | .loaded oid => some { s with revision := some oid, error := false, load := .idle }
  | _ => none

/-! ## Downloads -/

def servePinned (revision : String) (ifNoneMatch : Option String) : Download :=
  if etagMatches ifNoneMatch revision then .done else .looksPinned revision

def State.advance (s : State) (download : Nat) : Option State :=
  match s.downloads download with
  | .asks none ifNoneMatch => some (s.setDownload download (.gates none ifNoneMatch))
  | .asks (some revision) ifNoneMatch =>
    some (s.setDownload download
      (if s.isHealthy then .compares revision ifNoneMatch
        else servePinned revision ifNoneMatch))
  | .compares revision ifNoneMatch =>
    some (s.setDownload download
      (if s.getRevision = some revision then .gates (some revision) ifNoneMatch
        else servePinned revision ifNoneMatch))
  | .gates revision ifNoneMatch =>
    some (s.setDownload download
      (if s.isHealthy then .labels revision ifNoneMatch else .done))
  | .labels (some revision) ifNoneMatch =>
    some (s.setDownload download
      (if etagMatches ifNoneMatch revision then .done else .looks revision s.getRevision))
  | .labels none ifNoneMatch =>
    some (s.setDownload download
      (if s.getRevision.any (etagMatches ifNoneMatch) then .done
        else .archives s.getRevision []))
  | _ => none

def State.lookUp (s : State) (download : Nat) (readable : Bool) : Option State :=
  match s.downloads download with
  | .looks revision current =>
    match if readable then s.cache (sanitizeRevision revision) else none with
    | some archive => some (s.respond download (some revision) archive none)
    | none =>
      some (s.setDownload download
        (if current = some revision then .archives (some revision) [] else .done))
  | .looksPinned revision =>
    match if readable then s.cache (sanitizeRevision (pinnedCacheKey revision)) else none with
    | some archive => some (s.respond download (some revision) archive none)
    | none => some (s.setDownload download (.checksOut revision))
  | _ => none

def State.checkOut (server : Server) (s : State) (download : Nat) : Option State :=
  match s.downloads download with
  | .checksOut revision =>
    match server.commitFiles revision with
    | some files =>
      some (s.respond download (some revision) ⟨files, false, server.overlay⟩
        (some (pinnedCacheKey revision)))
    | none => none
  | _ => none

def State.read (s : State) (download : Nat) (path : String) : Option State :=
  match s.downloads download with
  | .archives label read =>
    if read.lookup path = none then
      some (s.setDownload download (.archives label ((path, s.dir path) :: read)))
    else none
  | _ => none

/-- What an archive of the clone holds: each file as it was when it was read, the rest as it
is now. -/
def archived (read : List (String × Option String)) (dir : Files) : Files := fun path =>
  (read.lookup path).getD (dir path)

def State.archive (server : Server) (s : State) (download : Nat) : Option State :=
  match s.downloads download with
  | .archives label read =>
    some (s.respond download label ⟨archived read s.dir, true, server.overlay⟩ label)
  | _ => none

def State.store (s : State) (put : Nat) : Option State :=
  match s.puts[put]? with
  | some (key, archive) =>
    some { s with
      puts := s.puts.eraseIdx put
      cache := Function.update s.cache (sanitizeRevision key) (some archive) }
  | none => none

def State.restart (s : State) : State :=
  { s with
    revision := none
    error := true
    load := .idle
    downloads := fun download => if s.downloads download = .unused then .unused else .done
    puts := [] }

def step (server : Server) (s : State) : Event → Option State
  | .fetches => if s.load = .idle then some { s with load := .resetting } else none
  | .writes path content =>
    if s.load = .resetting then some { s with dir := Function.update s.dir path content }
    else none
  | .resets oid untracked => s.reset server oid untracked
  | .publishes => s.publish
  | .fails => if s.load = .idle then none else some { s with error := true, load := .idle }
  | .requests download revision ifNoneMatch =>
    if s.downloads download = .unused then
      some (s.setDownload download (.asks revision ifNoneMatch))
    else none
  | .advances download => s.advance download
  | .looksUp download readable => s.lookUp download readable
  | .checksOut download => s.checkOut server download
  | .reads download path => s.read download path
  | .archives download => s.archive server download
  | .aborts download =>
    if s.downloads download = .unused then none else some (s.setDownload download .done)
  | .stores put => s.store put
  | .losesPut put =>
    if put < s.puts.length then some { s with puts := s.puts.eraseIdx put } else none
  | .evicts name => some { s with cache := Function.update s.cache name none }
  | .restarts => some s.restart

def initial : State := {}

end Stroem.Tarball
