/-! Faults: what a caller gets when it breaks a rule of the interface, as against an error in the
text or design it hands in. -/
namespace MachineSynth

/-- The rules that can be broken. Objects, methods and tables appear by name. -/
inductive Fault
  /-- A reference leads nowhere: an index out of range, or something absent. -/
  | dangling
  | invalidSpan
  | negativeMargin
  | endlessMargin
  | duplicateKey (key : String)
  | unknownKey (key : String)
  | foreignState
  | scanClosed
  | severalOwners (entity : String)
  | notChannelEnd (resource : String)
  | loadUnbound (register : UInt64)
  | loadNonObject (object label : String)
  | notMemberAccess
  | notBound (register : UInt64)
  | unknownRegister (register : UInt64) (object method : String)
  | nonNumeric (register : UInt64)
  | unknownOperator (operator : String)
  | notConstant (what object method : String)
  | writeToObject (object label : String)
  | accessToMethod (object label : String)
  | writeToConstant (object label : String)
  | arrayExpected (object method : String)
  | channelExpected (object method : String)
  | transferExpected (object : String)
  | unresolvedCallee (label object method : String)
  | doneWithoutCall (object method : String)
  | jumpOutOfRange (target : UInt64) (object method : String)
  | noImplementation (object method : String)
  | notSynthesized (object method : String)
  | noTask (object method : String)
  | noFlowThread (object method : String)
  | noSuccessor (callee caller : String)
  | flowInputs (table : String) (count : Nat)
deriving DecidableEq, Repr, Inhabited

namespace Fault

/-- The text a fault stops with; a dangling reference and an endless margin have none. -/
def text? : Fault → Option String
  | dangling => none
  | invalidSpan => some "invalid span"
  | negativeMargin => some "strings: negative Repeat count"
  | endlessMargin => none
  | duplicateKey key => some s!"source map key already exists: {key}"
  | unknownKey key => some s!"invalid source map key: {key}"
  | foreignState => some "state from different table"
  | scanClosed => some "scan result modified after ownership was determined"
  | severalOwners entity => some s!"multiple owner resources for {entity}"
  | notChannelEnd resource => some s!"not a channel resource: {resource}"
  | loadUnbound r => some s!"load_obj from unbound register {r}"
  | loadNonObject object label => some s!"load_obj of non-object member {object}.{label}"
  | notMemberAccess => some "not a member access instruction"
  | notBound r => some s!"register {r} is not bound to an object"
  | unknownRegister r object method => some s!"unknown register {r} in {object}.{method}"
  | nonNumeric r => some s!"num from non-numeric register {r}"
  | unknownOperator operator => some s!"unknown binary operator {operator}"
  | notConstant what object method => some s!"{what} must be constant in {object}.{method}"
  | writeToObject object label => some s!"write to object member {object}.{label}"
  | accessToMethod object label => some s!"access to method member {object}.{label}"
  | writeToConstant object label => some s!"write to constant member {object}.{label}"
  | arrayExpected object method => some s!"array access on non-array in {object}.{method}"
  | channelExpected object method => some s!"channel access on non-channel in {object}.{method}"
  | transferExpected object => some s!"axi transfer on non-array {object}"
  | unresolvedCallee label object method =>
    some s!"unresolved callee of {label} in {object}.{method}"
  | doneWithoutCall object method =>
    some s!"funcall_done without preceding funcall in {object}.{method}"
  | jumpOutOfRange target object method =>
    some s!"jump target {target} out of range in {object}.{method}"
  | noImplementation object method =>
    some s!"native method {object}.{method} has no imported implementation"
  | notSynthesized object method => some s!"method {object}.{method} was not synthesized"
  | noTask object method => some s!"no task for {object}.{method}"
  | noFlowThread object method => some s!"no data-flow thread for {object}.{method}"
  | noSuccessor callee caller => some s!"no state follows call of {callee} in {caller}"
  | flowInputs table count => some s!"data-flow table {table} has {count} inputs"

end Fault
end MachineSynth
