import Cityscape.Fact.Codec
import Cityscape.Http.Message
import Cityscape.Http.Route
import Cityscape.Ingestion.Commits
import Cityscape.Ingestion.Spans
import Cityscape.Json.Parser
import Cityscape.Landscape.Codec
import Cityscape.Query.Answer

/-!
# `Service`: the store behind HTTP

Facts are sent by POST, questions are asked by GET or, without the answer's body, by HEAD. What
is wrong with a request is told in this order: an unknown path, a method that the path does not
have, a parameter or a body that cannot be read, and last the fault of the call itself.

Main statement: only a POST can change the store (`serve_eq_of_ne_post`).
-/

namespace Cityscape.Http

/-- The version that the service reports. -/
def version : String := "0.1.0"

/-- Whether a media type is that of JSON; parameters behind it do not count. -/
def isJsonType (contentType : String) : Bool :=
  let essence := contentType.toLower.toList.takeWhile fun c => c ≠ ';'
  match Text.pieces '/' (Text.trim essence) with
  | [top, sub] =>
    String.ofList top = "application" &&
      (String.ofList sub = "json" || "+json".toList.isSuffixOf sub)
  | _ => false

/-- The value that the body of a request stands for, or the status that says why there is
none. A body that is not exactly one JSON value is a bad request; JSON of another form cannot be
processed. -/
def readBody {α : Type} (c : Codec α) (r : Request) : Except Status α :=
  if (r.contentType.map isJsonType).getD false then
    let d := Json.Document.ofText r.body
    match c.decode d.value with
    | .error .unreadable => .error .badRequest
    | .error .mismatch => .error .unprocessable
    | .ok a => if d.complete then .ok a else .error .badRequest
  else .error .unsupportedMediaType

/-- Takes in the fact in the body of a request. `reply` is what the response says. -/
def takeIn {α β : Type} (c : Codec α) (edit : α → Edit β) (reply : β → Response) (r : Request)
    (s : Store) : Response × Store :=
  match readBody c r with
  | .error status => ({ status }, s)
  | .ok a =>
    match (edit a).runOn s with
    | (.ok b, s) => (reply b, s)
    | (.error f, s) => (.ofFault f, s)

/-- The response that has nothing to tell. -/
def Response.done : Response where
  status := .noContent

/-- Takes in a fact of the given kind. -/
def send : FactKind → Request → Store → Response × Store
  | .repository => takeIn RepositoryFact.codec Edit.ingestRepository fun reply =>
      { status := .ok, body := some (RepositoryReply.codec.encode reply) }
  | .commit => takeIn CommitFact.codec Edit.ingestCommit fun _ => .done
  | .file => takeIn FileFact.codec Edit.ingestFile fun _ => .done
  | .span => takeIn SpanFact.codec Edit.ingestSpan fun _ => .done

/-- Answers a question at the time `now`. -/
def ask (now : Int64) (s : Store) : Question String → Response
  | .health =>
    { status := .ok, body := some (.obj [("status", .str "ok"), ("version", .str version)]) }
  | .latestStructure token => .ofAnswer Landscape.codec.encode (s.structureOf token .latest)
  | .selectedStructure token commits =>
    .ofAnswer Landscape.codec.encode (Selector.ofText commits >>= s.structureOf token)
  | .commitTree token application =>
    .ofAnswer CommitTree.codec.encode (s.commitTree token application)
  | .metrics token application commit =>
    .ofAnswer CodeMetrics.codec.encode (s.metricsOf token application commit)
  | .timestamps token =>
    { status := .ok, body := some (TraceTime.codec.list.encode (s.timestamps now token)) }
  | .latestCommit token repository branch =>
    .ofAnswer CommitSummary.codec.encode (s.latestCommit token repository branch)

/-- Answers an encoded question. -/
def askEncoded (now : Int64) (s : Store) (q : Question String) : Response :=
  match q.decoded? with
  | some q => ask now s q
  | none => { status := .badRequest }

/-- Serves one request at the time `now`. Preflight requests of browsers are granted for every
path. -/
def serve (now : Int64) (r : Request) (s : Store) : Response × Store :=
  if r.method = "OPTIONS" then ({ status := .ok }, s)
  else
    match Route.ofTarget? r.target, r.method with
    | none, _ => ({ status := .notFound }, s)
    | some (.send kind), "POST" => send kind r s
    | some (.ask q), "GET" => (askEncoded now s q, s)
    | some (.ask q), "HEAD" => ({ askEncoded now s q with body := none }, s)
    | some _, _ => ({ status := .methodNotAllowed }, s)

/-- Only a POST can change the store. -/
theorem serve_eq_of_ne_post {now : Int64} {r : Request} {s : Store} (h : r.method ≠ "POST") :
    (serve now r s).2 = s := by
  unfold serve
  split
  · rfl
  · split <;> simp_all

end Cityscape.Http
