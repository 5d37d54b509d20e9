import MachineSynth.Rtl.Design
import MachineSynth.Synth.Error

/-! Channels: the resources that use each channel object, and the channels they make. -/
namespace MachineSynth
namespace Synth

def channelWriteKind : String := "channel-write"

def channelReadKind : String := "channel-read"

structure ChannelEnds where
  name : String
  width : UInt64
  writers : List Rtl.ResourceRef
  readers : List Rtl.ResourceRef
deriving DecidableEq, Repr, Inhabited

/-- Channel objects in the order of their first use. -/
structure Channels where
  ends : List (Nat × ChannelEnds)
deriving DecidableEq, Repr, Inhabited

namespace Channels

def empty : Channels := ⟨[]⟩

def updateEnds (object : Nat) (new : ChannelEnds) (f : ChannelEnds → ChannelEnds) :
    List (Nat × ChannelEnds) → List (Nat × ChannelEnds)
  | [] => [(object, f new)]
  | (k, e) :: rest =>
    if k = object then (k, f e) :: rest else (k, e) :: updateEnds object new f rest

/-- Makes a resource of the given kind a user; one of another kind is none. -/
def use (kind : String) (r : Rtl.ResourceRef) (e : ChannelEnds) : ChannelEnds :=
  if kind = channelWriteKind then
    { e with writers := if e.writers.contains r then e.writers else e.writers ++ [r] }
  else if kind = channelReadKind then
    { e with readers := if e.readers.contains r then e.readers else e.readers ++ [r] }
  else e

def add (c : Channels) (object : Nat) (name : String) (width : UInt64) (kind : String)
    (r : Rtl.ResourceRef) : Channels :=
  ⟨updateEnds object ⟨name, width, [], []⟩ (use kind r) c.ends⟩

def addResource (c : Channels) (object : Nat) (name : String) (width : UInt64)
    (resource : Rtl.Resource) (r : Rtl.ResourceRef) : Channels × Option Fault :=
  (c.add object name width resource.kind r,
    if resource.kind = channelWriteKind || resource.kind = channelReadKind then none
    else some (.notChannelEnd resource.text))

/-- Why a channel object cannot be a channel: more than one writer, or more than one reader. -/
def conflict? (e : ChannelEnds) : Option SynthError :=
  if 1 < e.writers.length then some (.severalWriters e.name e.writers.length)
  else if 1 < e.readers.length then some (.severalReaders e.name e.readers.length)
  else none

/-- Adds a channel to a design, and its number to the parameters of its ends. -/
def connect (d : Rtl.Design) (e : ChannelEnds) : Rtl.Design :=
  let number := toString (d.channels.length + 1)
  let d := (e.writers ++ e.readers).foldl
    (fun d r => d.updateResource r (·.setParam "CHANNEL" number)) d
  d.addChannel e.width e.writers.head? e.readers.head?

/-- Adds the channels to a design, up to the first with a conflict. -/
def connectAll : List (Nat × ChannelEnds) → Rtl.Design → Rtl.Design × Option SynthError
  | [], d => (d, none)
  | (_, e) :: rest, d =>
    match conflict? e with
    | some error => (d, some error)
    | none => connectAll rest (connect d e)

def resolve (c : Channels) (d : Rtl.Design) : Rtl.Design × Option SynthError := connectAll c.ends d

end Channels
end Synth
end MachineSynth
