import ApiScaffold.Fault
import ApiScaffold.Text.Quoted

/-!
# The log

What a run reports while it works: events with a level, the part of the program they come from, and
a message.

`Traced` is a computation that leaves events behind whether or not it succeeds.
-/

namespace ApiScaffold

/-- How much an event matters. -/
inductive Level where
  | debug
  | info
  | warning
  | error
  deriving DecidableEq, Repr

namespace Level

/-- The word for a level. -/
def name : Level → String
  | debug => "DEBUG"
  | info => "INFO"
  | warning => "WARNING"
  | error => "ERROR"

/-- The number of a level: larger matters more. -/
def rank : Level → Nat
  | debug => 10
  | info => 20
  | warning => 30
  | error => 40

end Level

/-- How a file came to hold what it holds. -/
inductive Outcome where
  | created
  | overwritten
  | reconciled
  | validationFailed
  deriving DecidableEq, Repr

namespace Outcome

/-- The word for an outcome. -/
def name : Outcome → String
  | created => "created"
  | overwritten => "overwritten"
  | reconciled => "reconciled"
  | validationFailed => "validation_failed"

/-- The word for an outcome at the beginning of a sentence. -/
def title : Outcome → String
  | created => "Created"
  | overwritten => "Overwritten"
  | reconciled => "Reconciled"
  | validationFailed => "Validation_failed"

end Outcome

/-- Something worth reporting. -/
inductive Event where
  | modelRedefined (name : String)
  | modelStored (name : String) (fields : Nat)
  | serviceMerged (path name : String)
  | serviceStored (name : String) (methods : Nat)
  | controllerMerged (path name : String)
  | controllerStored (name : String) (methods : Nat)
  | parsed (models services controllers : Nat)
  | written (outcome : Outcome) (path : String)
  | rejected (path : String) (errors : List String)
  | upToDate (path : String)
  | reconciling (path : String) (added removed : List String)
  deriving DecidableEq, Repr

namespace Event

/-- How much an event matters. -/
def level : Event → Level
  | modelRedefined _ => .warning
  | written _ _ => .info
  | rejected _ _ => .error
  | _ => .debug

/-- The part of the program an event comes from. -/
def source : Event → String
  | modelRedefined _ | modelStored _ _ => "oas_scaffold.parser.models"
  | serviceMerged _ _ | serviceStored _ _ => "oas_scaffold.parser.services"
  | controllerMerged _ _ | controllerStored _ _ => "oas_scaffold.parser.controllers"
  | parsed _ _ _ => "oas_scaffold.engine"
  | written _ _ | rejected _ _ => "oas_scaffold.generator.base"
  | upToDate _ | reconciling _ _ _ => "oas_scaffold.generator.services"

/-- A list of names between brackets, each displayed. -/
def nameList (names : List String) : String :=
  "[" ++ ", ".intercalate (names.map fun n => String.ofList (Text.display n.toList)) ++ "]"

/-- The wording of an event. -/
def message : Event → String
  | modelRedefined name =>
    "Model " ++ name ++ " is defined more than once, keeping the last definition"
  | modelStored name n => "Stored model " ++ name ++ " (" ++ toString n ++ " fields)"
  | serviceMerged path name => "Merging " ++ path ++ " into service " ++ name
  | serviceStored name n => "Stored service " ++ name ++ " (" ++ toString n ++ " methods)"
  | controllerMerged path name => "Merging " ++ path ++ " into controller " ++ name
  | controllerStored name n => "Stored controller " ++ name ++ " (" ++ toString n ++ " methods)"
  | parsed m s c =>
    "Parsed " ++ toString m ++ " models, " ++ toString s ++ " services, " ++ toString c ++
      " controllers"
  | written outcome path => outcome.title ++ " " ++ path
  | rejected path errors =>
    "Generated " ++ path ++ " failed validation: " ++ "; ".intercalate errors
  | upToDate path => path ++ " is up to date"
  | reconciling path added removed =>
    "Reconciling " ++ path ++ ": +" ++ nameList added ++ " -" ++ nameList removed

/-- An event with its level. -/
def line (e : Event) : String := e.level.name ++ " " ++ e.message

/-- An event with its level and source. -/
def fullLine (e : Event) : String := e.level.name ++ " " ++ e.source ++ ": " ++ e.message

end Event

/-- A result with the events on the way to it. -/
structure Traced (α : Type) where
  log : List Event
  result : Except Fault α

namespace Traced

variable {α β : Type}

/-- A result without events. -/
def ofExcept (r : Except Fault α) : Traced α := ⟨[], r⟩

/-- Reports an event. -/
def report (e : Event) : Traced Unit := ⟨[e], .ok ()⟩

/-- Goes on with the result, if there is one. -/
def bind (t : Traced α) (f : α → Traced β) : Traced β :=
  match t.result with
  | .ok a => ⟨t.log ++ (f a).log, (f a).result⟩
  | .error e => ⟨t.log, .error e⟩

instance : Monad Traced where
  pure a := ⟨[], .ok a⟩
  bind := bind

instance : MonadLift (Except Fault) Traced where
  monadLift := ofExcept

end Traced

end ApiScaffold
