import Mathlib
import MachineSynth.Proofs.Journal.Storage
import MachineSynth.Proofs.Threads

/-! Units: the resource that a pool keeps for an operator has the types of the operator. Nothing
that lowering does to a pool changes them, so each method of a thread finds its units in order. -/
namespace MachineSynth
namespace Synth

open Builder (Act)

namespace Pool

structure Typed (p : Pool) : Prop extends p.Sound where
  types : ∀ {k : ResourceKey} {i : Nat} {r : Rtl.Resource}, k.kind ∈ operatorKinds →
    p.keys.lookup k = some i → p.resources[i]? = some r →
    (r.inputs, r.outputs) = operatorTypes k.kind k.type

variable {p q : Pool} {key k : ResourceKey} {prepare : Rtl.Resource → Rtl.Resource} {i : Nat}

theorem Planned.typed (h : p.Planned) : p.Typed := by
  refine { h.toSound with types := fun {k i r} hk hkey hr => ?_ }
  have hkind : r.kind = k.kind := by
    have := h.kind hkey
    rw [Rtl.kindAt, hr] at this
    exact Option.some.inj this
  have hport := h.ports r (List.mem_of_getElem? hr)
  rw [hkind] at hport
  have hapart : ∀ kind ∈ operatorKinds, kind ∉ plannedKinds := by decide
  exact absurd hport (hapart _ hk)

namespace Typed

theorem grow (h : p.Typed) (hq : q.Sound) (hext : p.Extends q)
    (hkeys : ∀ {k i}, k.kind ∈ operatorKinds → q.keys.lookup k = some i →
      p.keys.lookup k = some i) : q.Typed := by
  refine { hq with types := fun {k i r} hk hkey hr => ?_ }
  have hbefore := hkeys hk hkey
  obtain ⟨r₀, hr₀, -⟩ := Option.map_eq_some_iff.mp (h.kind hbefore)
  obtain ⟨r', hr', hbecomes⟩ := hext.resource hr₀
  cases Option.some.inj (hr.symm.trans hr')
  rw [hbecomes.inputs, hbecomes.outputs]
  exact h.types hk hbefore hr₀

theorem request (h : p.Typed) (hs : Suits key prepare) : (p.request key prepare).2.Typed := by
  have htakes := request_takes key hs.kind
  cases hkey : p.keys.lookup key with
  | some j =>
    rw [request_of_some prepare hkey]
    exact h
  | none =>
    refine { htakes.sound h.toSound with types := fun {k i r} hk hi hr => ?_ }
    by_cases hne : k = key
    · -- the resource of a new key is the one that has been prepared
      subst hne
      rw [lookup_request, Option.some.injEq] at hi
      rw [request_of_none prepare hkey] at hi hr
      rw [← hi, List.getElem?_concat_length, Option.some.injEq] at hr
      rw [← hr]
      exact hs.types hk _
    · rw [lookup_request_of_ne p prepare hne] at hi
      obtain ⟨r₀, hr₀, -⟩ := Option.map_eq_some_iff.mp (h.kind hi)
      obtain rfl : r₀ = r := Option.some.inj ((request_keeps hr₀).symm.trans hr)
      exact h.types hk hi hr₀

theorem transition (h : p.Typed) : p.transition.2.Typed := by
  refine h.grow (transition_takes.sound h.toSound) (transition_takes.grows p) fun _ hkey => ?_
  unfold Pool.transition at hkey
  split at hkey <;> exact hkey

theorem hold (h : p.Typed) (e : Entity) (width : UInt64) :
    ((p.sharedMember e true false).2.update (p.sharedMember e true false).1
      (·.setWidth width)).Typed := by
  have htakes := sharedMember_takes e true false
  have hheld : (p.sharedMember e true false).2.Typed :=
    h.grow (htakes.sound h.toSound) (htakes.grows p) fun hk hkey => by
      refine (lookup_request_of_ne p _ ?_).symm.trans hkey
      rintro rfl
      exact absurd hk (show "shared-reg" ∉ operatorKinds by decide)
  exact hheld.grow (update_sound hheld.toSound fun _ _ => rfl)
    (update_extends fun r _ => setWidth_becomes r width) fun _ hkey => hkey

theorem dataFlow (h : p.Typed) (width : UInt64) : (p.dataFlow width).2.Typed := by
  have htakes := dataFlow_takes width
  refine h.grow (htakes.sound h.toSound) (htakes.grows p) fun {k i} hk hkey => ?_
  have hinput : k ≠ ⟨Rtl.dataFlowKind, "", 0, .truth⟩ := by
    rintro rfl
    exact absurd hk (show Rtl.dataFlowKind ∉ operatorKinds by decide)
  have hfeed : k ≠ ⟨"shared-reg", "$dataflow", 0, .truth⟩ := by
    rintro rfl
    exact absurd hk (show "shared-reg" ∉ operatorKinds by decide)
  simp only [Pool.dataFlow] at hkey
  split at hkey
  · exact hkey
  · rw [lookup_cons_eq, if_neg hinput] at hkey
    exact (lookup_request_of_ne (p.add Rtl.dataFlowKind).2 id hfeed).symm.trans hkey

end Typed

theorem operator_typed (h : p.Typed) {kind : String} (hkind : kind ∈ operatorKinds)
    (t : Rtl.ValueType) : (p.operator kind t).2.Typed ∧
      ∃ r, (p.operator kind t).2.resources[(p.operator kind t).1]? = some r ∧ r.kind = kind ∧
        (r.inputs, r.outputs) = operatorTypes kind t := by
  have hplain : ∀ kind ∈ operatorKinds, IsPlain kind := by decide
  have htyped : (p.operator kind t).2.Typed :=
    h.request ⟨hplain kind hkind, fun _ => rfl, fun _ => rfl, fun _ _ => rfl⟩
  have hkey : (p.operator kind t).2.keys.lookup ⟨kind, "", 0, t⟩ = some (p.operator kind t).1 :=
    lookup_request p _ _
  obtain ⟨r, hr, hk⟩ := Option.map_eq_some_iff.mp (htyped.kind hkey)
  exact ⟨htyped, r, hr, hk, htyped.types hkind hkey hr⟩

end Pool

def Builder.Act.Suits : Act → Prop
  | request key prepare => Pool.Suits key prepare
  | _ => True

variable {m : Machine} {owners : OwnershipTable} {thread : ThreadId} {b b' : Builder}

theorem Pool.Typed.onPool {p : Pool} {act : Act} (hact : act.Suits) (hp : p.Typed) :
    (act.onPool p).Typed := by
  cases act with
  | request key prepare => exact hp.request hact
  | transition => exact hp.transition
  | dataFlow width => exact hp.dataFlow width
  | hold e width => exact hp.hold e width
  | _ => exact hp

theorem permits_suits (m : Machine) (owners : OwnershipTable) (thread : ThreadId) :
    Lower.Permits m owners thread Act.Suits :=
  Lower.permits_of_lowers fun act hact => by
    cases act with
    | request key prepare => exact hact.1
    | _ => trivial

theorem permitsChannels_suits : Lower.PermitsChannels Act.Suits :=
  ⟨fun h _ => h, fun _ _ _ _ _ => trivial⟩

theorem permitsFlow_suits : Lower.PermitsFlow Act.Suits := fun _ => trivial

theorem permitsTasks_suits : Lower.PermitsTasks Act.Suits := Lower.permitsTasks_of_suits id

theorem Logs.typed {σ α : Type} [Journaled σ] {x : StateT σ (Except Stop) α} {s s' : σ} {a : α}
    (hx : Logs Act.Suits x) (h : x.run s = .ok (a, s'))
    (hs : (Journaled.builder s).pool.Typed) : (Journaled.builder s').pool.Typed :=
  hx.pool Pool.Typed.onPool h hs

namespace ThreadTable

/-- Each method of a thread is lowered into a table whose operators have their types. -/
theorem lowerAll_typed {t : ThreadPlan} {names : List String} {cs : List (String × Context)}
    (hb : b.Sound) (htyped : b.pool.Typed)
    (h : lowerAll m owners thread t names b = .ok (cs, b')) :
    ∀ name c, (name, c) ∈ cs → ∃ b₁ b₂, b₁.Sound ∧ b₁.pool.Typed ∧
      Site.lower m owners thread t.object name (roleOf m t name) b₁ = .ok (c, b₂) ∧
      b₂.Extends b' := by
  induction names generalizing b cs with
  | nil =>
    cases h
    exact fun _ _ hmem => by cases hmem
  | cons name rest ih =>
    simp only [lowerAll, except_bind_eq_ok] at h
    obtain ⟨⟨c, b₁⟩, hlower, ⟨cs', b₂⟩, hrest, h⟩ := h
    cases h
    obtain ⟨hb₁, -⟩ := Site.lower_spec hb hlower
    have htyped₁ : b₁.pool.Typed :=
      (Site.logs_lower (permits_suits m owners thread) permitsChannels_suits t.object name _
        (fun _ => permitsTasks_suits) fun _ => permitsFlow_suits).typed (s := b) hlower htyped
    have hext := (lowerAll_spec hb₁ hrest).2.1
    intro name' c' hmem
    rcases List.mem_cons.mp hmem with heq | hmem
    · cases heq
      exact ⟨b, b₁, hb, htyped, hlower, hext⟩
    · exact ih hb₁ htyped₁ hrest name' c' hmem

end ThreadTable
end Synth
end MachineSynth
