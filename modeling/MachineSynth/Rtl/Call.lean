import MachineSynth.Rtl.Basic

/-! The resources through which one table calls another. Each is looked for among the resources of
the caller and added if it is not there. -/
namespace MachineSynth
namespace Rtl

def taskKind : String := "sub-module-task"

def taskReturnKind : String := "task-return"

def dataFlowKind : String := "dataflow-in"

def taskCallKind : String := "sub-module-task-call"

def taskReturnValueKind : String := "task-return-value"

def sharedWriterKind : String := "shared-reg-writer"

def findOfKind? (resources : List Resource) (kind : String) (p : Resource → Bool) : Option Nat :=
  resources.findIdx? fun r => r.kind = kind && p r

/-- The resource that meets a condition, or a new one of the kind, prepared. -/
def findOrAdd (resources : List Resource) (kind : String) (p : Resource → Bool)
    (prepare : Resource → Resource) : Nat × List Resource :=
  match findOfKind? resources kind p with
  | some i => (i, resources)
  | none => (resources.length, resources ++ [prepare (.new (resources.length + 1) kind)])

def taskCall (resources : List Resource) (callee : TableRef) (theirs : List Resource)
    (member : String) : Nat × List Resource :=
  findOrAdd resources taskCallKind (·.callee = some callee) fun r =>
    { (if member = "" then r else r.setParam "MEMBER" member) with
      callee := some callee
      parent := (firstOfKind? theirs taskKind).map (⟨callee, ·⟩) }

/-- The resource that receives the results of the callee; none if it hands none back. -/
def taskReturnValue (resources : List Resource) (callee : TableRef) (theirs : List Resource) :
    Option Nat × List Resource :=
  match firstOfKind? theirs taskReturnKind with
  | none => (none, resources)
  | some k =>
    let (i, resources) := findOrAdd resources taskReturnValueKind (·.callee = some callee) fun r =>
      { r with callee := some callee, parent := some ⟨callee, k⟩ }
    (some i, resources)

def dataFlowCaller (resources : List Resource) (register : ResourceRef) (width : UInt64) :
    Nat × List Resource :=
  findOrAdd resources sharedWriterKind (·.parent = some register) fun r =>
    { r.setWidth width with parent := some register }

end Rtl
end MachineSynth
