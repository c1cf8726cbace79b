/-!
# Causes of failure

One inductive type per layer says what went wrong: reading a number or a text from bytes
(`WireError`), encoding or decoding with a coder (`CoderError`), and everything else (`Fault`).
The wording of each cause is in one function, `message`.
-/

namespace EventTime

/-- Why a self-delimiting value could not be read from the front of a byte string. -/
inductive WireError
  | endOfInput
  | unterminatedNumber
  | badBool
  | badOption
  | badText
  | badVariant
  deriving DecidableEq, Repr

def WireError.message : WireError → String
  | .endOfInput => "Hit the end of buffer, expected more data"
  | .unterminatedNumber =>
    "Found a varint that didn't terminate. Is the usize too big for this platform?"
  | .badBool => "Found a bool that wasn't 0 or 1"
  | .badOption => "Found an Option discriminant that wasn't 0 or 1"
  | .badText => "Tried to parse invalid utf-8"
  | .badVariant => "Serde Deserialization Error"

/-- Why a coder refused a value or a byte string. -/
inductive CoderError
  | wire (cause : WireError)
  | unknownTag (tag : UInt8)
  | unexpectedEnd
  deriving DecidableEq, Repr

def CoderError.message : CoderError → String
  | .wire cause => "postcard: " ++ cause.message
  | .unknownTag tag => "unknown variant tag " ++ toString tag.toNat
  | .unexpectedEnd => "unexpected end of input"

/-- Why a stage could not be built, or why an evaluation stopped. -/
inductive Fault
  /-- A composite trigger was given fewer children than it needs. -/
  | tooFewSubTriggers (trigger : String) (least actual : Nat)
  /-- A default output was asked for outside the one global window. -/
  | defaultOutsideGlobalWindows
  | cannotProvideCoder
  /-- A timer was addressed to a composite node. -/
  | timerAtComposite (trigger : String) (node : Nat)
  /-- A timer's destination lies outside the subtree it was routed into. -/
  | noPathToTimer (node destination : Nat)
  | coder (cause : CoderError)
  | divisionByZero
  /-- A number on the way to a result does not fit a 64-bit word. -/
  | overflow
  /-- A policy of the caller's own gave up. -/
  | custom (text : String)
  /-- A stage received elements of another type than it was built for. -/
  | inputType (stage : String)
  /-- The elements read from a node are not of the type asked for. -/
  | resultType
  | missingNode (node : Nat)
  | noInput (node : Nat)
  /-- A node's output was asked for after its last reader had taken it. -/
  | alreadyConsumed (node : Nat)
  /-- A cause, and what was being done when it arose. -/
  | during (activity : String) (cause : Fault)
  deriving DecidableEq, Repr

def Fault.message : Fault → String
  | .tooFewSubTriggers trigger least actual =>
    trigger ++ " requires at least " ++ toString least ++ " sub-triggers, got " ++ toString actual
  | .defaultOutsideGlobalWindows =>
    "attempted to add a default value to a collection not windowed by GlobalWindows; " ++
      "use without_defaults() or as_singleton_view() instead"
  | .cannotProvideCoder => "unable to determine a coder for the accumulator type"
  | .timerAtComposite trigger node =>
    trigger ++ " (node " ++ toString node ++ ") received a timer addressed to itself"
  | .noPathToTimer node destination =>
    "no child of trigger node " ++ toString node ++ " leads to timer destination " ++
      toString destination
  | .coder cause => cause.message
  | .divisionByZero => "division by zero"
  | .overflow => "arithmetic overflow"
  | .custom text => text
  | .inputType stage => stage ++ ": input of another element type"
  | .resultType => "terminal type mismatch"
  | .missingNode node => "missing node NodeId(" ++ toString node ++ ")"
  | .noInput node => "node NodeId(" ++ toString node ++ ") has no input"
  | .alreadyConsumed node => "node NodeId(" ++ toString node ++ ") output already consumed"
  | .during activity cause => activity ++ ": " ++ cause.message

end EventTime
