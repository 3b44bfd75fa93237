import BoundedStore.Command.Execute
import BoundedStore.Command.Reader
import BoundedStore.Http.MediaType
import BoundedStore.Http.Target

/-!
# The server's answers to HTTP requests

`POST /command` runs one command, `GET /stats` reports the counters, and `GET /health` says that the
server is up. A router is a function from the store and a request to a response and the store after
it; only a command that is read, and to which there is no objection, changes the store.

Every response lets scripts of any site read it. A client may therefore ask with `OPTIONS` first,
which is answered on every path.
-/

namespace BoundedStore

namespace Http

/-- A request as far as the router looks at it. -/
structure Request where
  method : String
  /-- Where the request goes, as it was sent. -/
  target : String
  contentType : Option String
  body : String

/-- The content of a response. -/
inductive Body where
  | empty
  | reply (r : Reply)
  | failure (message : String)
  | report (r : Report)
  /-- The server is up, with the time at which that is said. -/
  | health

structure Response where
  status : Nat
  /-- The sites whose scripts may read the response. -/
  allowOrigin : Option String
  body : Body

/-! ### Responses -/

/-- The status of a refusal. -/
def statusOf : StoreError → Nat
  | .duplicatedKey _ => 409
  | .nonExistentKey _ => 404
  | .wrongType _ => 400
  | .invalidRequest _ => 400
  | .invalidConfiguration _ => 500

def refusal (e : StoreError) : Response :=
  { status := statusOf e, allowOrigin := none, body := .failure e.message }

/-- A response with a body. -/
def success (body : Body) : Response :=
  { status := 200, allowOrigin := none, body }

def bare (status : Nat) : Response :=
  { status, allowOrigin := none, body := .empty }

/-- The status of a body that cannot be read. -/
def faultStatus : Fault → Nat
  | .malformed => 400
  | .misshapen => 422

/-! ### Routing -/

/-- What a server can be asked for. -/
inductive Route where
  | command
  | statistics
  | health
  deriving DecidableEq

/-- The route of a target, by its path alone. -/
def route? (target : String) : Option Route :=
  match String.ofList (Target.path target.toList) with
  | "/command" => some .command
  | "/stats" => some .statistics
  | "/health" => some .health
  | _ => none

/-- The most bytes that the body of a command may have. -/
def bodyLimit : Nat := 2 * 1024 * 1024

/-- The command that a request asks to run, or the response that turns it down. The type of the body
is looked at before its size, and its size before it is read; what follows the first JSON value of
the body is ignored. -/
def commandOf (r : Request) : Except Response Command :=
  if !r.contentType.any MediaType.isJson then .error (bare 415)
  else if bodyLimit < r.body.utf8ByteSize then .error (bare 413)
  else
    match Command.readFirst r.body.toList with
    | .error fault => .error (bare (faultStatus fault))
    | .ok (c, _) =>
      match c.objection with
      | some detail => .error (refusal (.invalidRequest detail))
      | none => .ok c

def runCommand (s : Store) (r : Request) : Response × Store :=
  match commandOf r with
  | .error response => (response, s)
  | .ok c =>
    match s.execute c with
    | (.ok reply, next) => (success (.reply reply), next)
    | (.error e, next) => (refusal e, next)

/-- Answers a request that only looks: with the body to `GET`, without it to `HEAD`. -/
def look (r : Request) (body : Body) : Response :=
  if r.method = "GET" then success body
  else if r.method = "HEAD" then bare 200
  else bare 405

/-- Answers a request by its route. -/
def dispatch (s : Store) (r : Request) : Response × Store :=
  match route? r.target with
  | none => (bare 404, s)
  | some .command => if r.method = "POST" then runCommand s r else (bare 405, s)
  | some .statistics => (look r (.report s.report), s)
  | some .health => (look r .health, s)

/-- Answers a request, and lets every site read the answer. -/
def handle (s : Store) (r : Request) : Response × Store :=
  let (response, next) := if r.method = "OPTIONS" then (bare 200, s) else dispatch s r
  ({ response with allowOrigin := some "*" }, next)

def handleAll (s : Store) : List Request → List Response × Store
  | [] => ([], s)
  | r :: rest =>
    let (response, next) := handle s r
    let (responses, last) := handleAll next rest
    (response :: responses, last)

end Http

end BoundedStore
