import Mathlib
import MachineSynth.Proofs.Expansion.Filling
import MachineSynth.Proofs.Expansion.Moves

/-! Nesting: when a method can be expanded. Each call that is inlined puts its caller on the stack,
so expansion goes through if no chain of such calls comes back to a method or grows too long, and
only then. The bound on the recursion is never what stops it. -/
namespace MachineSynth
namespace Synth

/-- Whether a call is replaced by a copy of the callee: it stays on the object, and the callee does
not run in a thread of its own. -/
def Callee.IsInlined (m : Machine) (c : Callee) : Prop :=
  c.outside = false ∧
    (Walker.calledMethod? m (some c.object) c.method).any (·.marks.dataFlowEntry) = false

namespace Expand

namespace Env

variable (env : Env)

/-- Whether a lowered method has a call of another, or of itself, that is inlined. -/
def Inlines (a b : String) : Prop :=
  ∃ c, env.contexts.lookup a = some c ∧ ∃ st ∈ c.states, ∃ callee, st.callee = some callee ∧
    callee.method = b ∧ callee.IsInlined env.machine

/-- What a method is known by while it is expanded. -/
def key (name : String) : Option MethodKey := (env.contexts.lookup name).map (·.key)

/-- Whether a method that inlines others is not taken for another one. -/
def Keyed : Prop :=
  ∀ {a b callee : String}, env.Inlines a callee → env.key a = env.key b → a = b

/-- Whether a method can be expanded below others, the innermost first. -/
def Nests : Nat → List String → String → Prop
  | 0, _, _ => False
  | depth + 1, above, name => name ∉ above ∧ above.length < env.limit ∧
    ∀ callee, env.Inlines name callee → Nests depth (name :: above) callee

variable {env}

/-- Methods on the stack are lowered, so that there are no more of them than there are contexts. -/
theorem length_le_of_nodup {names : List String} (h : names.Nodup)
    (hnames : ∀ a ∈ names, ∃ c, env.contexts.lookup a = some c) :
    names.length ≤ env.contexts.length := by
  have hsub : names ⊆ env.contexts.map (·.1) := by
    intro a ha
    obtain ⟨c, hc⟩ := hnames a ha
    exact List.mem_map.mpr ⟨_, mem_of_lookup hc, rfl⟩
  simpa using (h.subperm hsub).length_le

theorem Nests.chain {depth : Nat} {above names : List String} {name : String}
    (h : env.Nests depth above name) (hchain : (name :: names).IsChain env.Inlines) :
    (name :: names).Nodup ∧ (∀ a ∈ name :: names, a ∉ above) ∧
      above.length + (name :: names).length ≤ env.limit := by
  induction names generalizing depth above name with
  | nil =>
    cases depth with
    | zero => exact h.elim
    | succ depth => exact ⟨List.nodup_singleton _, by simpa using h.1, h.2.1⟩
  | cons b rest ih =>
    cases depth with
    | zero => exact h.elim
    | succ depth =>
      obtain ⟨hcall, hrest⟩ := List.isChain_cons_cons.mp hchain
      obtain ⟨hnodup, hapart, hlength⟩ := ih (h.2.2 b hcall) hrest
      simp only [List.length_cons] at hlength ⊢
      refine ⟨List.nodup_cons.mpr ⟨fun hmem => hapart name hmem List.mem_cons_self, hnodup⟩,
        fun a ha => ?_, by omega⟩
      rcases List.mem_cons.mp ha with rfl | ha
      · exact h.1
      · exact fun hmem => hapart a ha (List.mem_cons_of_mem _ hmem)

/-- If no chain of calls comes back to a method or grows too long, its first method nests: the bound
is large enough for every chain without repetition. -/
theorem nests_of_chains (hfound : ∀ {a b}, env.Inlines a b → ∃ c, env.contexts.lookup b = some c)
    {depth : Nat} {above : List String} {name : String}
    (hdepth : env.contexts.length < depth + above.length) (hnodup : above.Nodup)
    (hnames : ∀ a ∈ name :: above, ∃ c, env.contexts.lookup a = some c)
    (h : ∀ names, (name :: names).IsChain env.Inlines → (name :: names).Nodup ∧
      (∀ a ∈ name :: names, a ∉ above) ∧ above.length + (name :: names).length ≤ env.limit) :
    env.Nests depth above name := by
  induction depth generalizing above name with
  | zero =>
    have hle := length_le_of_nodup hnodup fun a ha => hnames a (List.mem_cons_of_mem _ ha)
    omega
  | succ depth ih =>
    obtain ⟨-, hapart, hlength⟩ := h [] (List.isChain_singleton _)
    have hname : name ∉ above := hapart name List.mem_cons_self
    refine ⟨hname, hlength, fun callee hcall => ?_⟩
    refine ih (by simp only [List.length_cons]; omega) (List.nodup_cons.mpr ⟨hname, hnodup⟩)
      (fun a ha => ?_) fun names hchain => ?_
    · rcases List.mem_cons.mp ha with rfl | ha
      · exact hfound hcall
      · exact hnames a ha
    · obtain ⟨hnodup', hapart', hlength'⟩ := h _ (List.isChain_cons_cons.mpr ⟨hcall, hchain⟩)
      obtain ⟨hfirst, hrest⟩ := List.nodup_cons.mp hnodup'
      refine ⟨hrest, fun a ha => ?_, by simp only [List.length_cons] at hlength' ⊢; omega⟩
      simp only [List.mem_cons, not_or]
      exact ⟨fun heq => hfirst (heq ▸ ha), hapart' a (List.mem_cons_of_mem _ ha)⟩

end Env

section Success

variable {α β : Type} {lowered : Pool} {P Q : Prop}

/-- Whether a part of the expansion succeeds under some condition and only then, as long as the
table has what the methods of the thread were lowered with; it keeps that. -/
def Succeeds (lowered : Pool) (P : Prop) (p : Expand α) : Prop :=
  ∀ x : Expansion, lowered.Extends x.builder.pool → ((∃ r, p.run x = .ok r) ↔ P) ∧
    ∀ a x', p.run x = .ok (a, x') → lowered.Extends x'.builder.pool

theorem Succeeds.iff {p : Expand α} (hp : Succeeds lowered P p) (h : P ↔ Q) :
    Succeeds lowered Q p :=
  fun x hx => ⟨(hp x hx).1.trans h, (hp x hx).2⟩

theorem Succeeds.bind {p : Expand α} {f : α → Expand β} (hp : Succeeds lowered P p)
    (hf : ∀ a, Succeeds lowered Q (f a)) : Succeeds lowered (P ∧ Q) (p >>= f) := by
  intro x hx
  obtain ⟨hiff, hkeep⟩ := hp x hx
  refine ⟨⟨?_, ?_⟩, fun b x' h => ?_⟩
  · rintro ⟨⟨b, x'⟩, h⟩
    obtain ⟨a, x₁, hrun, hrest⟩ := run_bind_eq_ok.mp h
    exact ⟨hiff.mp ⟨_, hrun⟩, (hf a x₁ (hkeep a x₁ hrun)).1.mp ⟨_, hrest⟩⟩
  · rintro ⟨hP, hQ⟩
    obtain ⟨⟨a, x₁⟩, hrun⟩ := hiff.mpr hP
    obtain ⟨r, hr⟩ := (hf a x₁ (hkeep a x₁ hrun)).1.mpr hQ
    exact ⟨r, run_bind_eq_ok.mpr ⟨a, x₁, hrun, hr⟩⟩
  · obtain ⟨a, x₁, hrun, hrest⟩ := run_bind_eq_ok.mp h
    exact (hf a x₁ (hkeep a x₁ hrun)).2 b x' hrest

theorem Succeeds.then {p : Expand α} {f : α → Expand β} (hp : Succeeds lowered True p)
    (hf : ∀ a, Succeeds lowered Q (f a)) : Succeeds lowered Q (p >>= f) :=
  (hp.bind hf).iff (true_and _ ▸ Iff.rfl)

theorem succeeds_get {f : Expansion → Expand β}
    (hf : ∀ x, lowered.Extends x.builder.pool → Succeeds lowered Q (f x)) :
    Succeeds lowered Q (get >>= f) := by
  intro x hx
  have hrun : (get >>= f).run x = (f x).run x := run_bind_of_ok (run_get_eq_ok.mpr rfl)
  rw [hrun]
  exact hf x hx x hx

theorem succeeds_throw (e : Stop) : Succeeds lowered False (throw e : Expand α) := by
  refine fun x _ => ⟨⟨fun h => ?_, False.elim⟩, fun a x' h => ?_⟩
  · obtain ⟨r, h⟩ := h
    cases h
  · cases h

theorem succeeds_of_keeps {p : Expand α} (h : Keeps (.only fun _ => False) p) :
    Succeeds lowered True p := by
  refine fun x hx => ⟨iff_of_true ?_ trivial, fun a x' hrun => ?_⟩
  · cases hrun : p.run x with
    | error e => exact ((h x).1 e hrun).elim
    | ok r => exact ⟨r, rfl⟩
  · exact preserved_of_steps (P := fun y : Expansion => lowered.Extends y.builder.pool)
      (fun hmove hy => hy.trans hmove.extends.pool) ((h x).2 a x' hrun) hx

theorem succeeds_pure (a : α) : Succeeds lowered True (pure a) := succeeds_of_keeps (keeps_pure a)

variable {env : Env} {copy : Context → Expand (Nat × Nat)} {R : String → Prop}

theorem succeeds_call {state : Nat} {i : Rtl.Insn} {c : Callee}
    (hcopy : c.IsInlined env.machine → ∃ callee, env.contexts.lookup c.method = some callee ∧
      Succeeds lowered (R c.method) (copy callee)) :
    Succeeds lowered (c.IsInlined env.machine → R c.method) (call env copy state i c) := by
  unfold call
  simp only
  split
  · rename_i hflow
    refine (succeeds_of_keeps fun x => obeys_modify (.flow x trivial)).iff
      (iff_of_true trivial fun h => ?_)
    exact absurd (h.2.symm.trans hflow) Bool.false_ne_true
  · rename_i hflow
    split
    · rename_i houtside
      refine (succeeds_of_keeps fun x => obeys_modify (.task x trivial)).iff
        (iff_of_true trivial fun h => ?_)
      exact absurd (h.1.symm.trans houtside) Bool.false_ne_true
    · rename_i houtside
      have hinlined : c.IsInlined env.machine := ⟨by simpa using houtside, by simpa using hflow⟩
      obtain ⟨callee, hcallee, hsucceeds⟩ := hcopy hinlined
      rw [hcallee]
      have hinline : ∀ first last, Succeeds lowered True (inline state i callee first last) :=
        fun first last => succeeds_of_keeps (keeps_inline _ _ _ (fun _ _ => trivial)
          fun _ _ => trivial)
      exact (hsucceeds.bind fun _ => hinline _ _).iff
        ⟨fun h _ => h.1, fun h => ⟨h hinlined, trivial⟩⟩

theorem succeeds_fill {closes : Bool} {c : Context} (hc : Shaped lowered.resources closes c.states)
    {sts : List LoweredState} (hsts : sts ⊆ c.states)
    (hcopy : ∀ st ∈ sts, ∀ callee, st.callee = some callee → callee.IsInlined env.machine →
      ∃ c', env.contexts.lookup callee.method = some c' ∧
        Succeeds lowered (R callee.method) (copy c')) (base state : Nat) :
    Succeeds lowered (∀ st ∈ sts, ∀ callee, st.callee = some callee →
      callee.IsInlined env.machine → R callee.method) (fill env copy base state sts) := by
  induction sts generalizing state with
  | nil => exact (succeeds_pure _).iff (iff_of_true trivial fun _ h => absurd h List.not_mem_nil)
  | cons st rest ih =>
    have hrest := fun state => ih (fun st' h => hsts (List.mem_cons_of_mem _ h))
      (fun st' h => hcopy st' (List.mem_cons_of_mem _ h)) state
    refine succeeds_get fun x hx => (succeeds_of_keeps (keeps_copyInsns _ _ fun _ _ _ _ =>
      trivial)).then fun _ => ?_
    rw [find?_isPseudo hx hc (hsts List.mem_cons_self)]
    split
    · rename_i callee i hcallee _
      refine ((succeeds_call (hcopy st List.mem_cons_self callee hcallee)).bind fun _ =>
        hrest _).iff ?_
      simp [hcallee]
    · rename_i hnone
      -- a state that calls holds the placeholder of its call
      have hcallee : st.callee = none := by
        by_contra hsome
        obtain ⟨callee, hcallee⟩ := Option.ne_none_iff_exists'.mp hsome
        obtain ⟨k, hk⟩ := List.mem_iff_getElem?.mp (hsts List.mem_cons_self)
        obtain ⟨p, j, hinsns, hp, -⟩ := hc.call hk (by simp [hcallee])
        exact hnone callee p hcallee (by simp [hinsns, isPseudo_eq hp])
      refine ((succeeds_pure ()).bind fun _ => hrest _).iff ?_
      simp [hcallee]

/-- A method can be copied when it nests below those that are being copied. -/
theorem succeeds_copy (hshaped : ∀ {name c}, env.contexts.lookup name = some c →
      ∃ closes, Shaped lowered.resources closes c.states)
    (hfound : ∀ {a b}, env.Inlines a b → ∃ c, env.contexts.lookup b = some c)
    (hkeyed : env.Keyed) (depth : Nat) {above : List String} {stack : List MethodKey}
    {name : String} {c : Context} (hc : env.contexts.lookup name = some c)
    (hstack : stack.map some = above.map env.key)
    (habove : ∀ a ∈ above, ∃ callee, env.Inlines a callee) :
    Succeeds lowered (env.Nests depth above name) (Expand.copy env depth stack c) := by
  induction depth generalizing above stack name c with
  | zero => exact succeeds_throw _
  | succ depth ih =>
    have hkey : env.key name = some c.key := by simp [Env.key, hc]
    have hlength : stack.length = above.length := by simpa using congrArg List.length hstack
    have hmem : c.key ∈ stack ↔ name ∈ above := by
      rw [← List.mem_map_of_injective (Option.some_injective _), hstack, List.mem_map]
      constructor
      · rintro ⟨a, ha, heq⟩
        obtain ⟨callee, hcallee⟩ := habove a ha
        exact hkeyed hcallee (heq.trans hkey.symm) ▸ ha
      · exact fun h => ⟨name, h, hkey⟩
    unfold Expand.copy
    simp only
    split
    · rename_i hcontains
      refine (succeeds_throw _).iff (iff_of_false id fun h => h.1 (hmem.mp ?_))
      simpa [Context.key] using hcontains
    · rename_i hcontains
      split
      · rename_i hlimit
        exact (succeeds_throw _).iff (iff_of_false id fun h => absurd h.2.1 (by omega))
      · rename_i hlimit
        obtain ⟨closes, hcshaped⟩ := hshaped hc
        refine succeeds_get fun x _ => (succeeds_of_keeps (keeps_addStates _)).then fun _ =>
          ((succeeds_fill (R := env.Nests depth (name :: above)) hcshaped (List.Subset.refl _)
            (fun st hst callee hcallee hinlined => ?_) _ _).bind fun _ => succeeds_pure _).iff ?_
        · have hcalls : env.Inlines name callee.method :=
            ⟨c, hc, st, hst, callee, hcallee, rfl, hinlined⟩
          obtain ⟨c', hc'⟩ := hfound hcalls
          refine ⟨c', hc', ih hc' (by simp [hstack, hkey, Context.key]) fun a ha => ?_⟩
          rcases List.mem_cons.mp ha with rfl | ha
          · exact ⟨_, hcalls⟩
          · exact habove a ha
        · rw [and_true]
          have hname : name ∉ above := fun h => hcontains (by
            simpa [Context.key] using hmem.mpr h)
          refine ⟨fun h => ⟨hname, by omega, ?_⟩, fun h st hst callee hcallee hinlined =>
            h.2.2 _ ⟨c, hc, st, hst, callee, hcallee, rfl, hinlined⟩⟩
          rintro - ⟨c', hc', st, hst, callee, hcallee, rfl, hinlined⟩
          cases Option.some.inj (hc.symm.trans hc')
          exact h st hst callee hcallee hinlined

end Success

section Bound

variable {env : Env} {copy copy' : Context → Expand (Nat × Nat)}

theorem fill_congr (h : ∀ {name c}, env.contexts.lookup name = some c → copy c = copy' c)
    (base state : Nat) (sts : List LoweredState) :
    fill env copy base state sts = fill env copy' base state sts := by
  have hcall : ∀ state i c, call env copy state i c = call env copy' state i c := by
    intro state i c
    unfold call
    cases hc : env.contexts.lookup c.method with
    | none => rfl
    | some callee => simp only [h hc]
  induction sts generalizing state with
  | nil => rfl
  | cons st rest ih => simp only [fill, ih, hcall]

/-- The bound on the recursion does not matter if it is large enough for all methods that are not
yet on the stack: the stack grows with every call, and no method is on it twice. -/
theorem copy_of_le {depth : Nat} {stack : List MethodKey} {name : String} {c : Context}
    (hc : env.contexts.lookup name = some c)
    (hdepth : env.contexts.length < depth + stack.length) (hnodup : stack.Nodup)
    (hstack : ∀ k ∈ stack, ∃ name, env.key name = some k) (n : Nat) :
    Expand.copy env (depth + n) stack c = Expand.copy env depth stack c := by
  induction depth generalizing stack name c with
  | zero =>
    have hsub : stack ⊆ env.contexts.map (·.2.key) := by
      intro k hk
      obtain ⟨name, hname⟩ := hstack k hk
      obtain ⟨c', hc', rfl⟩ := Option.map_eq_some_iff.mp hname
      exact List.mem_map.mpr ⟨_, mem_of_lookup hc', rfl⟩
    have hle : stack.length ≤ env.contexts.length := by simpa using (hnodup.subperm hsub).length_le
    omega
  | succ depth ih =>
    rw [Nat.add_right_comm]
    simp only [Expand.copy]
    split
    · rfl
    · rename_i hcontains
      have hkey : c.key ∉ stack := by simpa [Context.key] using hcontains
      have hcopy : ∀ {name c'}, env.contexts.lookup name = some c' →
          Expand.copy env (depth + n) (c.key :: stack) c' =
            Expand.copy env depth (c.key :: stack) c' := fun hc' =>
        ih hc' (by simp only [List.length_cons]; omega) (List.nodup_cons.mpr ⟨hkey, hnodup⟩)
          fun k hk => (List.mem_cons.mp hk).elim (fun h => ⟨name, by simp [Env.key, hc, h]⟩)
            (hstack k)
      have hfill : ∀ base state sts,
          fill env (Expand.copy env (depth + n) (⟨c.object, c.method.name⟩ :: stack)) base state sts =
            fill env (Expand.copy env depth (⟨c.object, c.method.name⟩ :: stack)) base state sts :=
        fill_congr hcopy
      simp only [hfill]

end Bound

end Expand

/-- The method that a chain of inlined calls leads to, given by the states that call, the outermost
first. -/
def Context.follow? (env : Expand.Env) (resources : List Rtl.Resource) :
    List Nat → Context → Option Context
  | [], c => some c
  | k :: chain, c => ((c.states[k]?).bind (Expand.inlined? env resources)).bind fun x =>
      follow? env resources chain x.2

/-- A copy stands for every chain of calls, as long as the depth does not run out. -/
theorem Expand.Copy.descend_follow? {env : Expand.Env} {resources : List Rtl.Resource}
    {κ : Expand.Copy} (hdepth : ∀ chain κ', κ.descend env resources chain = some κ' →
      0 < κ'.depth) (chain : List Nat) :
    (κ.descend env resources chain).map (·.context) = κ.context.follow? env resources chain := by
  induction chain generalizing κ with
  | nil => rfl
  | cons k chain ih =>
    obtain ⟨depth, hd⟩ := Nat.exists_eq_succ_of_ne_zero (hdepth [] κ rfl).ne'
    rw [descend, Context.follow?, Option.map_bind, enter, hd]
    simp only
    cases hx : (κ.context.states[k]?).bind (inlined? env resources) with
    | none => rfl
    | some x =>
      simp only [Option.map_some, Option.bind_some]
      refine ih fun chain' κ' h => hdepth (k :: chain') κ' ?_
      rw [descend, enter, hd]
      simpa [hx] using h

end Synth
end MachineSynth
