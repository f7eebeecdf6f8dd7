import Cityscape.Fault
import Cityscape.Json.Basic

/-!
# `Message`: requests and responses

A request has a method, a target and perhaps a body; a response has a status and perhaps a JSON
value. A response without a value says all it has to say by its status.
-/

namespace Cityscape.Http

/-- What is asked of the service. -/
structure Request where
  method : String
  /-- The path, perhaps with a query behind it. -/
  target : String
  /-- The media type of the body. -/
  contentType : Option String := none
  body : String := ""

/-- How a request went. -/
inductive Status where
  | ok | noContent | badRequest | notFound | methodNotAllowed | preconditionFailed
  | unsupportedMediaType | unprocessable | internalError
deriving DecidableEq

/-- The number of a status. -/
def Status.code : Status → Nat
  | .ok => 200
  | .noContent => 204
  | .badRequest => 400
  | .notFound => 404
  | .methodNotAllowed => 405
  | .preconditionFailed => 412
  | .unsupportedMediaType => 415
  | .unprocessable => 422
  | .internalError => 500

/-- The status that tells a caller of a fault. -/
def Status.ofFault (f : Fault) : Status :=
  match f.kind with
  | .notFound | .resolutionEmpty => .notFound
  | .failedPrecondition => .preconditionFailed
  | .invalidArgument => .badRequest
  | .store => .internalError

/-- What the service says. -/
structure Response where
  status : Status
  body : Option Json := none

/-- The response to a fault: the message without its kind. -/
def Response.ofFault (f : Fault) : Response where
  status := .ofFault f
  body := some (.obj [("error", .str f.message)])

/-- The response to a query. -/
def Response.ofAnswer {α : Type} (encode : α → Json) : Except Fault α → Response
  | .ok a => { status := .ok, body := some (encode a) }
  | .error f => .ofFault f

end Cityscape.Http
