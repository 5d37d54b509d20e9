import MachineSynth.Fault

/-! Errors of synthesis: what a machine asks for that no design can have. -/
namespace MachineSynth
namespace Synth

/-- Objects, methods and channels appear by name. -/
inductive SynthError
  | noThread (object : String)
  | methodNotFound (object method : String)
  | memberNotFound (object label : String)
  | methodAsMember (object label : String)
  | notImported (object method alt : String)
  | nativeMethod (object method : String)
  | unsupportedNative (object method : String)
  | arrayExpected (object method : String)
  | unresolvedCallee (label object method : String)
  | portShared (object method : String)
  | outputWithoutArgument (object method : String)
  | inputWithoutReturn (object method : String)
  | unsupportedArgument (type argument object method : String)
  | recursiveCall (object method : String)
  | nestedTooDeeply (object method : String) (limit : Nat)
  | noOwner (entity : String)
  | severalWriters (channel : String) (count : Nat)
  | severalReaders (channel : String) (count : Nat)
  /-- An error found while a thread was scanned. -/
  | inScan (thread entry : String) (cause : SynthError)
  /-- An error found while a thread was made into a table. -/
  | inSynthesis (thread entry : String) (cause : SynthError)
deriving Repr, Inhabited

namespace SynthError

def message : SynthError → String
  | noThread object => s!"no thread to synthesize in {object}"
  | methodNotFound object method => s!"method not found: {object}.{method}"
  | memberNotFound object label => s!"member not found: {object}.{label}"
  | methodAsMember object label => s!"method {object}.{label} accessed as a member"
  | notImported object method alt =>
    s!"native method {object}.{method} has no imported implementation {alt}"
  | nativeMethod object method => s!"native method {object}.{method} cannot be synthesized"
  | unsupportedNative object method => s!"unsupported native method {object}.{method}"
  | arrayExpected object method => s!"array access on non-array in {object}.{method}"
  | unresolvedCallee label object method => s!"unresolved callee of {label} in {object}.{method}"
  | portShared object method =>
    s!"external io method {object}.{method} is accessed by more than one thread"
  | outputWithoutArgument object method => s!"external output {object}.{method} has no argument"
  | inputWithoutReturn object method => s!"external input {object}.{method} has no return value"
  | unsupportedArgument type argument object method =>
    s!"unsupported type {type} of argument {argument} in {object}.{method}"
  | recursiveCall object method => s!"recursive call of {object}.{method} is not supported"
  | nestedTooDeeply object method limit =>
    s!"calls nested too deeply at {object}.{method} (limit {limit})"
  | noOwner entity => s!"no owner resource for shared {entity}"
  | severalWriters channel count => s!"channel {channel} has {count} writers"
  | severalReaders channel count => s!"channel {channel} has {count} readers"
  | inScan thread entry cause => s!"failed to scan thread: {thread}.{entry}: {cause.message}"
  | inSynthesis thread entry cause =>
    s!"failed to synthesize thread: {thread}.{entry}: {cause.message}"

end SynthError

inductive Stop
  | error (e : SynthError)
  | fault (f : Fault)
deriving Repr

namespace Stop

def mapError (f : SynthError → SynthError) : Stop → Stop
  | error e => error (f e)
  | fault g => fault g

end Stop
end Synth
end MachineSynth
