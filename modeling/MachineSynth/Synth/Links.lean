import MachineSynth.Synth.Error
import MachineSynth.Synth.Ownership

/-! Links from the resources that access a shared entity to the one that holds it. -/
namespace MachineSynth
namespace Synth

variable {ρ : Type} [DecidableEq ρ]

/-- The resources of one entity. -/
structure Link (ρ : Type) where
  owner : Option ρ
  accessors : List ρ
deriving Repr, Inhabited

/-- Links in the order in which the entities were met. -/
structure Links (ρ : Type) where
  entries : List (Entity × Link ρ)
deriving Inhabited

namespace Links

def empty : Links ρ := ⟨[]⟩

def updateLink (e : Entity) (f : Link ρ → Link ρ) : List (Entity × Link ρ) → List (Entity × Link ρ)
  | [] => [(e, f ⟨none, []⟩)]
  | (k, l) :: rest => if k = e then (k, f l) :: rest else (k, l) :: updateLink e f rest

def find (l : Links ρ) (e : Entity) : Link ρ := (l.entries.lookup e).getD ⟨none, []⟩

/-- Registers the resource that holds an entity. -/
def addOwner (l : Links ρ) (e : Entity) (r : ρ) : Except Fault (Links ρ) :=
  match (l.find e).owner with
  | some o =>
    if o = r then .ok l else .error (.severalOwners e.text)
  | none => .ok ⟨updateLink e (fun k => { k with owner := some r }) l.entries⟩

/-- Registers a resource that accesses an entity. -/
def addAccessor (l : Links ρ) (e : Entity) (r : ρ) : Links ρ :=
  ⟨updateLink e (fun k =>
    { k with accessors := if k.accessors.contains r then k.accessors else k.accessors ++ [r] })
    l.entries⟩

def parentsOf : List (Entity × Link ρ) → List (ρ × ρ) × Option SynthError
  | [] => ([], none)
  | (e, l) :: rest =>
    match l.accessors, l.owner with
    | [], _ => parentsOf rest
    | _ :: _, none => ([], some (.noOwner e.text))
    | as, some o =>
      let (ps, error) := parentsOf rest
      ((as.filter (· ≠ o)).map (·, o) ++ ps, error)

def parents (l : Links ρ) : List (ρ × ρ) × Option SynthError := parentsOf l.entries

end Links
end Synth
end MachineSynth
