import PushMachine.Machine.Run
import PushMachine.Machine.View
import PushMachine.Options.Configuration
import PushMachine.Random.Twister
import PushMachine.Service.Body
import PushMachine.Service.Resource
/-!
# The service

Four resources: a greeting, a health check, running a program on a fresh machine, and validating a configuration.  A
body that does not fit is rejected with the locations at fault; a program or options that are wrong in themselves are
answered with what is wrong with them.
-/
namespace PushMachine
namespace Service

structure Request where
  method : String
  path   : String
  body   : Option Json := none

inductive Response where
  | document (status : Nat) (body : Json)
  /-- The body does not fit, at these locations. -/
  | rejected (locations : List String)

def version : String := "0.1.0"

def greeting : Json :=
  .object [("name", .string "PyPush API"), ("version", .string version), ("docs", .string "/docs"),
    ("health", .string "/health")]

def health : Json :=
  .object [("status", .string "healthy"), ("version", .string version), ("service", .string "pypush-api")]

def detail (j : Json) : Json := .object [("detail", j)]

/-- A request that was read and cannot be carried out. -/
def unprocessable (errors : List String) : Response :=
  .document 422 (detail (.object [("errors", .array (errors.map .string))]))

/-- Locations are reported in order. -/
def rejected (locations : List String) : Response := .rejected (locations.mergeSort fun a b => a ≤ b)

def runBody (o : Options) (e : Ending) (m : Machine Twister) : Json :=
  .object [("status", .string e.status), ("success", .boolean e.isSuccess), ("steps", .integer e.steps),
    ("stacks", m.stacksJson o), ("definitions", m.bindingsJson), ("error", (e.message?.map Json.string).getD .null)]

/-- Options are checked before the program is parsed. -/
def runProgram (o : Options) (text : String) : Except Fault Response :=
  match o.validated with
  | .error problems => .ok (unprocessable (problems.map Problem.message))
  | .ok o           =>
    match (Machine.initial (Twister.ofSeed o.seed)).run o text with
    | (.error e, _)       => .ok (unprocessable [e.message])
    | (.ok (.error f), _) => .error f
    | (.ok (.ok e), m)    => .ok (.document 200 (runBody o e m))

def run : Option Json → Except Fault Response
  | some (.object ms) =>
    let program := readText "body.program" none (Json.member? "program" ms)
    let options := readOptions "body.options" ((Json.member? "options" ms).getD .null)
    match program.invalid ++ options.invalid with
    | []      => runProgram options.value program.value
    | invalid => .ok (rejected invalid)
  | _ => .ok (rejected ["body"])

/-- A member of the options in a response; a float that JSON has no number for is null. -/
def responseMember : String × Json → String × Json
  | (name, .float x) => (name, if Number.isFinite x then .float x else .null)
  | m                => m

def validateBody (config : String) : Json :=
  match Options.ofText config with
  | .error e => .object [("valid", .boolean false), ("options", .null), ("errors", .array [.string e.message])]
  | .ok o    =>
    .object [("valid", .boolean true), ("options", .object (o.members.map responseMember)), ("errors", .array [])]

def validate : Option Json → Response
  | some (.object ms) =>
    let config := readText "body.config" (some "") (Json.member? "config" ms)
    match config.invalid with
    | []      => .document 200 (validateBody config.value)
    | invalid => rejected invalid
  | _ => rejected ["body"]

/-- **The answer to a request**, unless a fault of the program it runs ends it. -/
def handle (r : Request) : Except Fault Response :=
  match Resource.ofTarget? r.path with
  | none          => .ok (.document 404 (detail (.string "Not Found")))
  | some resource =>
    if r.method.toUpper ≠ resource.method then .ok (.document 405 (detail (.string "Method Not Allowed")))
    else match resource with
      | .greeting => .ok (.document 200 greeting)
      | .health   => .ok (.document 200 health)
      | .run      => run r.body
      | .validate => .ok (validate r.body)

end Service
end PushMachine
