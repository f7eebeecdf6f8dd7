import Cityscape.Text.Percent
import Cityscape.Text.Segments

/-!
# `Route`: what a path stands for

Paths are cut at slashes before percent-encodings are resolved, so an encoded slash belongs to
a parameter. Every piece counts: a slash at the end makes a different path. A parameter may be
empty, except at the end of a path.
-/

namespace Cityscape.Http

/-- The facts that can be sent. -/
inductive FactKind where
  | repository | commit | file | span
deriving DecidableEq

/-- What can be asked, with parameters of type `α`. -/
inductive Question (α : Type) where
  | health
  | latestStructure (token : α)
  | selectedStructure (token commits : α)
  | commitTree (token application : α)
  | metrics (token application commit : α)
  | timestamps (token : α)
  | latestCommit (token repository branch : α)
deriving DecidableEq

/-- Reads all parameters of a question. -/
def Question.read? {α β : Type} (f : α → Option β) : Question α → Option (Question β)
  | .health => some .health
  | .latestStructure token => return .latestStructure (← f token)
  | .selectedStructure token commits => return .selectedStructure (← f token) (← f commits)
  | .commitTree token application => return .commitTree (← f token) (← f application)
  | .metrics token application commit =>
    return .metrics (← f token) (← f application) (← f commit)
  | .timestamps token => return .timestamps (← f token)
  | .latestCommit token repository branch =>
    return .latestCommit (← f token) (← f repository) (← f branch)

/-- Where a path leads. Parameters are still encoded. -/
inductive Route where
  | send (kind : FactKind)
  | ask (question : Question String)
deriving DecidableEq

/-- The path of a target, without query and fragment. -/
def pathOf (target : String) : String :=
  String.ofList (target.toList.takeWhile fun c => c ≠ '?' ∧ c ≠ '#')

/-- The route with the given pieces. -/
def Route.ofPieces? : List String → Option Route
  | ["", "health"] => some (.ask .health)
  | ["", "v2", "ingest", "state"] => some (.send .repository)
  | ["", "v2", "ingest", "commits"] => some (.send .commit)
  | ["", "v2", "ingest", "files"] => some (.send .file)
  | ["", "v2", "ingest", "spans"] => some (.send .span)
  | ["", "v2", "code", "structure", token] =>
    if token.isEmpty then none else some (.ask (.latestStructure token))
  | ["", "v2", "code", "structure", token, commits] =>
    if commits.isEmpty then none else some (.ask (.selectedStructure token commits))
  | ["", "v2", "code", "commit-tree", token, application] =>
    if application.isEmpty then none else some (.ask (.commitTree token application))
  | ["", "v2", "code", "metrics", token, application, commit] =>
    if commit.isEmpty then none else some (.ask (.metrics token application commit))
  | ["", "v2", "landscapes", token, "timestamps"] => some (.ask (.timestamps token))
  | ["", "v2", "landscapes", token, "commits", repository, branch, "latest"] =>
    some (.ask (.latestCommit token repository branch))
  | _ => none

/-- The route of a target. -/
def Route.ofTarget? (target : String) : Option Route :=
  ofPieces? ((Text.pieces '/' (pathOf target).toList).map String.ofList)

/-- The question with its parameters decoded, unless one of them is not UTF-8. -/
def Question.decoded? (q : Question String) : Option (Question String) :=
  q.read? fun p => Text.percentDecode? p.toList

end Cityscape.Http
