import Mathlib
import MachineSynth.Proofs.Reach.Calls

/-! Posting: the instructions that wiring adds to the states of a table. Each call posts one to the
state that calls, and one that waits for what is handed back to the state behind it. -/
namespace MachineSynth

namespace Rtl

def insnsOfKind (resources : List Resource) (kind : String) (insns : List Insn) : List Insn :=
  insns.filter (kindAt resources ·.resource = some kind)

theorem findOrAdd_get (resources : List Resource) (kind : String) (is : Resource → Bool)
    {p : Resource → Resource} (hp : ∀ r, (p r).kind = r.kind) :
    ∃ r, (findOrAdd resources kind is p).2[(findOrAdd resources kind is p).1]? = some r ∧
      r.kind = kind ∧ (r ∈ resources ∧ is r = true ∨ ∃ id, r = p (.new id kind)) := by
  unfold findOrAdd
  split
  · rename_i i hi
    obtain ⟨hlt, hk, -⟩ := List.findIdx?_eq_some_iff_getElem.mp hi
    simp only [Bool.and_eq_true, decide_eq_true_eq] at hk
    exact ⟨_, List.getElem?_eq_getElem hlt, hk.1, .inl ⟨List.getElem_mem hlt, hk.2⟩⟩
  · exact ⟨_, List.getElem?_concat_length, hp _, .inr ⟨_, rfl⟩⟩

theorem isTransition_of_isPrefix {resources resources' : List Resource}
    (h : resources <+: resources') {i : Insn} (hi : i.resource < resources.length) :
    i.isTransition resources' = i.isTransition resources := by
  obtain ⟨kind, hk⟩ := exists_kindAt hi
  rw [isTransition_eq hk, isTransition_eq (kindAt_of_isPrefix h hk)]

/-- What is added to a state that leads on does not change where it leads. -/
theorem successor?_of_isPrefix {resources resources' : List Resource} {insns insns' : List Insn}
    {next : Nat} (hresources : resources <+: resources') (hinsns : insns <+: insns')
    (hinside : ∀ i ∈ insns, i.resource < resources.length)
    (h : successor? resources insns = some next) : successor? resources' insns' = some next := by
  obtain ⟨i, hi, hnext⟩ : ∃ i, transition? resources insns = some i ∧ i.targets = [next] := by
    unfold successor? at h
    split at h
    · rename_i hi
      cases h
      exact ⟨_, hi, rfl⟩
    · cases h
  have hsame : ∀ is ⊆ insns, transition? resources' is = transition? resources is := by
    intro is his
    induction is with
    | nil => rfl
    | cons j rest ih =>
      rw [transition?, List.find?_cons, isTransition_of_isPrefix hresources
        (hinside j (his List.mem_cons_self)), transition?, List.find?_cons]
      split
      · rfl
      · exact ih fun k hk => his (List.mem_cons_of_mem j hk)
  obtain ⟨new, rfl⟩ := hinsns
  have hfound : transition? resources' (insns ++ new) = some i := by
    rw [transition?, List.find?_append, ← transition?, hsame insns (List.Subset.refl _), hi]
    rfl
  obtain ⟨id, resource, operand, inputs, outputs, targets⟩ := i
  obtain rfl : targets = [next] := hnext
  simp [successor?, hfound]

end Rtl

namespace Synth

/-- An instruction that wiring adds for a call: it starts a task, waits for what the task hands
back, or writes the register that feeds a data-flow table. -/
inductive Post
  | start (callee : Rtl.TableRef) (entrance : Option Rtl.ResourceRef) (inputs : List Nat)
  | wait (callee : Rtl.TableRef) (entrance : Rtl.ResourceRef) (outputs : List Nat)
  | notify (register : Rtl.ResourceRef) (inputs : List Nat)

namespace Post

def kind : Post → String
  | start _ _ _ => Rtl.taskCallKind
  | wait _ _ _ => Rtl.taskReturnValueKind
  | notify _ _ => Rtl.sharedWriterKind

/-- Whether an instruction is the one that was posted. A data-flow table is always passed
something. -/
def Done (resources : List Rtl.Resource) : Post → Rtl.Insn → Prop
  | start callee entrance inputs, i => ∃ r, resources[i.resource]? = some r ∧
      r.kind = Rtl.taskCallKind ∧ r.callee = some callee ∧ r.parent = entrance ∧
      i.operand = "" ∧ i.inputs = inputs ∧ i.outputs = []
  | wait callee entrance outputs, i => ∃ r, resources[i.resource]? = some r ∧
      r.kind = Rtl.taskReturnValueKind ∧ r.callee = some callee ∧ r.parent = some entrance ∧
      i.operand = "wait_notify" ∧ i.inputs = [] ∧ i.outputs = outputs
  | notify register inputs, i => ∃ r, resources[i.resource]? = some r ∧
      r.kind = Rtl.sharedWriterKind ∧ r.parent = some register ∧
      i.operand = "notify" ∧ i.inputs ≠ [] ∧ (inputs ≠ [] → i.inputs = inputs) ∧ i.outputs = []

variable {resources resources' : List Rtl.Resource} {p : Post} {i : Rtl.Insn}

theorem Done.kindAt (h : p.Done resources i) :
    Rtl.kindAt resources i.resource = some p.kind := by
  cases p <;> obtain ⟨r, hr, hkind, -⟩ := h <;> simp [Rtl.kindAt, hr, hkind, kind]

theorem Done.of_isPrefix (h : p.Done resources i) (hp : resources <+: resources') :
    p.Done resources' i := by
  cases p <;> exact h.imp fun _ h => ⟨getElem?_of_isPrefix hp h.1, h.2⟩

end Post

def postsAt (posts : List (Nat × Post)) (j : Nat) : List Post :=
  (posts.filter (·.1 = j)).map (·.2)

theorem postsAt_append (ps qs : List (Nat × Post)) (j : Nat) :
    postsAt (ps ++ qs) j = postsAt ps j ++ postsAt qs j := by
  simp [postsAt]

def postsOfKind (posts : List (Nat × Post)) (j : Nat) (kind : String) : List Post :=
  (postsAt posts j).filter (·.kind = kind)

section Kinds

variable (ps qs : List (Nat × Post)) (i j : Nat) (p : Post) (kind : String)

@[simp] theorem postsOfKind_nil : postsOfKind [] j kind = [] := rfl

theorem postsOfKind_append :
    postsOfKind (ps ++ qs) j kind = postsOfKind ps j kind ++ postsOfKind qs j kind := by
  rw [postsOfKind, postsAt_append, List.filter_append, ← postsOfKind, ← postsOfKind]

theorem postsOfKind_cons : postsOfKind ((i, p) :: ps) j kind =
    (if i = j ∧ p.kind = kind then [p] else []) ++ postsOfKind ps j kind := by
  by_cases hi : i = j <;> by_cases hp : p.kind = kind <;> simp [postsOfKind, postsAt, hi, hp]

theorem postsOfKind_flatMap {α : Type} (xs : List α) (f : α → List (Nat × Post)) :
    postsOfKind (xs.flatMap f) j kind = xs.flatMap fun x => postsOfKind (f x) j kind := by
  induction xs with
  | nil => rfl
  | cons x rest ih => rw [List.flatMap_cons, postsOfKind_append, ih, List.flatMap_cons]

end Kinds

namespace ThreadTable

/-- The resource at which others reach a table: the first of a kind. -/
def entrance? (t : ThreadTable) (kind : String) : Option Rtl.ResourceRef :=
  (Rtl.firstOfKind? t.resources kind).map (⟨t.plan.place, ·⟩)

def taskPosts (callee : ThreadTable) (call : TableCall) : List (Nat × Post) :=
  (call.state, .start callee.plan.place (callee.entrance? Rtl.taskKind) call.inputs) ::
    if call.outputs.isEmpty then []
    else ((callee.entrance? Rtl.taskReturnKind).map fun entrance =>
      (call.state + 1, .wait callee.plan.place entrance call.outputs)).toList

def feed? (t : ThreadTable) : Option Rtl.ResourceRef :=
  match Rtl.positionsOfKind t.resources Rtl.dataFlowKind with
  | [i] => (t.resources[i]?).bind (·.parent)
  | _ => none

def flowPosts (callee : ThreadTable) (call : TableCall) : List (Nat × Post) :=
  (callee.feed?.map fun register => (call.state, .notify register call.inputs)).toList

/-- A table later than another, in whose states instructions were added for what was posted. -/
structure Posts (t : ThreadTable) (posts : List (Nat × Post)) (t' : ThreadTable) : Prop where
  grows : t.Grows t'
  done : ∀ {j : Nat} {s : Rtl.State}, t.states[j]? = some s → ∃ s' new, t'.states[j]? = some s' ∧
    s'.insns = s.insns ++ new ∧ List.Forall₂ (Post.Done t'.resources) (postsAt posts j) new

section Posts

variable {t t' t'' : ThreadTable} {ps qs : List (Nat × Post)}

theorem Posts.of_states (hgrows : t.Grows t') (hstates : t'.states = t.states) :
    t.Posts [] t' :=
  ⟨hgrows, fun {_ s} hs => ⟨s, [], hstates ▸ hs, (List.append_nil _).symm, .nil⟩⟩

theorem Posts.trans (h : t.Posts ps t') (h' : t'.Posts qs t'') : t.Posts (ps ++ qs) t'' := by
  refine ⟨h.grows.trans h'.grows, fun {j s} hs => ?_⟩
  obtain ⟨s', new, hs', hinsns, hnew⟩ := h.done hs
  obtain ⟨s'', new', hs'', hinsns', hnew'⟩ := h'.done hs'
  refine ⟨s'', new ++ new', hs'', by rw [hinsns', hinsns, List.append_assoc], ?_⟩
  rw [postsAt_append]
  exact List.rel_append (hnew.imp fun _ _ hdone => hdone.of_isPrefix h'.grows.resources) hnew'

theorem posts_addInsn {p : Post} {state resource : Nat} {operand : String}
    {inputs outputs : List Nat}
    (h : ∀ id, p.Done t.resources ⟨id, resource, operand, inputs, outputs, []⟩) :
    t.Posts [(state, p)] (t.addInsn state resource operand inputs outputs) := by
  refine ⟨.addInsn _ _ _ _ _ _, fun {j s} hs => ?_⟩
  by_cases hj : state = j
  · subst hj
    refine ⟨⟨s.id, s.insns ++ [⟨t.builder.newInsn.1, resource, operand, inputs, outputs, []⟩]⟩, _, ?_,
      rfl, ?_⟩
    · simp only [addInsn, List.getElem?_modify_eq, hs]
      rfl
    · rw [postsAt, List.filter_singleton, decide_eq_true rfl]
      exact .cons (h _) .nil
  · refine ⟨s, [], ?_, (List.append_nil _).symm, ?_⟩
    · simp only [addInsn, List.getElem?_modify_ne _ _ hj, hs]
    · rw [postsAt, List.filter_singleton, decide_eq_false hj]
      exact .nil

theorem eq_singleton_of_done {resources : List Rtl.Resource} {p : Post} {new : List Rtl.Insn}
    (h : List.Forall₂ (Post.Done resources) [p] new) : ∃ i, new = [i] ∧ p.Done resources i := by
  obtain ⟨i, rest, hdone, hrest, rfl⟩ := List.forall₂_cons_left_iff.mp h
  obtain rfl := List.forall₂_nil_left_iff.mp hrest
  exact ⟨i, rfl, hdone⟩

theorem Posts.ofKind (h : t.Posts ps t') {j : Nat} {s : Rtl.State} (hs : t.states[j]? = some s)
    (hinside : ∀ i ∈ s.insns, i.resource < t.resources.length) (kind : String) :
    ∃ s' new, t'.states[j]? = some s' ∧ Rtl.insnsOfKind t'.resources kind s'.insns =
        Rtl.insnsOfKind t.resources kind s.insns ++ new ∧
      List.Forall₂ (Post.Done t'.resources) (postsOfKind ps j kind) new := by
  obtain ⟨s', new, hs', hinsns, hnew⟩ := h.done hs
  refine ⟨s', Rtl.insnsOfKind t'.resources kind new, hs', ?_,
    List.rel_filter (fun p i hdone => ?_) hnew⟩
  · rw [hinsns, Rtl.insnsOfKind, List.filter_append]
    refine congrArg (· ++ _) (List.filter_congr fun i hi => ?_)
    obtain ⟨kind', hkind⟩ := Rtl.exists_kindAt (hinside i hi)
    rw [hkind, Rtl.kindAt_of_isPrefix h.grows.resources hkind]
  · simp [hdone.kindAt]

/-- Whether the instructions of a table need only resources that it has. -/
def Inside (t : ThreadTable) : Prop :=
  ∀ s ∈ t.states, ∀ i ∈ s.insns, i.resource < t.resources.length

theorem Tidy.inside (h : t.Tidy) : t.Inside := fun s hs => (h.orderly s hs).inside

theorem Posts.inside (h : t.Posts ps t') (ht : t.Inside) : t'.Inside := by
  intro s' hs' i hi
  obtain ⟨j, hj⟩ := List.mem_iff_getElem?.mp hs'
  have hlt := (List.getElem?_eq_some_iff.mp hj).1
  rw [h.grows.length] at hlt
  obtain ⟨s'', new, hj', hinsns, hnew⟩ := h.done (List.getElem?_eq_getElem hlt)
  cases Option.some.inj (hj.symm.trans hj')
  rw [hinsns] at hi
  rcases List.mem_append.mp hi with hi | hi
  · exact (ht _ (List.getElem_mem hlt) i hi).trans_le h.grows.resources.length_le
  · obtain ⟨n, hn, rfl⟩ := List.mem_iff_getElem.mp hi
    exact Rtl.lt_of_kindAt (hnew.get (by rw [hnew.length_eq]; exact hn) hn).kindAt

/-- A state that leads on is followed by the same state later. -/
theorem Grows.successor? (h : t.Grows t') (ht : t.Inside) {j next : Nat}
    (hnext : t.successor? j = some next) : t'.successor? j = some next := by
  obtain ⟨s, hs, hnext⟩ := Option.bind_eq_some_iff.mp hnext
  obtain ⟨s', hs', -, hinsns⟩ := h.state hs
  exact Option.bind_eq_some_iff.mpr ⟨s', hs', Rtl.successor?_of_isPrefix h.resources hinsns
    (ht s (List.mem_of_getElem? hs)) hnext⟩

end Posts

/-- Whether a resource that starts a task, or waits for one, leads to the entrance of the task. -/
def Attends (tables : List ThreadTable) (r : Rtl.Resource) : Prop :=
  ∀ callee ∈ tables, r.callee = some callee.plan.place →
    (r.kind = Rtl.taskCallKind → r.parent = callee.entrance? Rtl.taskKind) ∧
    (r.kind = Rtl.taskReturnValueKind → r.parent = callee.entrance? Rtl.taskReturnKind)

/-- Whether all resources of a table that are there for calls lead where they should. -/
def Faithful (tables : List ThreadTable) (t : ThreadTable) : Prop :=
  ∀ r ∈ t.resources, Attends tables r

section Wiring

variable {m : Machine} {plan : Plan} {tables : List ThreadTable} {t t' callee : ThreadTable}
  {call : TableCall}

/-- Tables of a list that are known by their places. -/
def Apart (tables : List ThreadTable) : Prop :=
  ∀ a ∈ tables, ∀ b ∈ tables, a.plan.place = b.plan.place → a = b

theorem Faithful.findOrAdd (h : t.Faithful tables) {kind : String} {is : Rtl.Resource → Bool}
    {p : Rtl.Resource → Rtl.Resource} (hp : ∀ id, Attends tables (p (.new id kind))) :
    (t.setResources (Rtl.findOrAdd t.resources kind is p).2).Faithful tables := by
  intro r hr
  obtain ⟨k, hk⟩ := List.mem_iff_getElem?.mp hr
  rcases Rtl.findOrAdd_mem hk with hk | ⟨-, rfl⟩
  · exact h r (List.mem_of_getElem? hk)
  · exact hp _

theorem attends_of_callee (hapart : Apart tables) (hmem : callee ∈ tables) {r : Rtl.Resource}
    (hcallee : r.callee = some callee.plan.place)
    (hcall : r.kind = Rtl.taskCallKind → r.parent = callee.entrance? Rtl.taskKind)
    (hwait : r.kind = Rtl.taskReturnValueKind → r.parent = callee.entrance? Rtl.taskReturnKind) :
    Attends tables r := by
  intro callee' hmem' hcallee'
  obtain rfl : callee = callee' := hapart _ hmem _ hmem'
    (Option.some.inj (hcallee.symm.trans hcallee'))
  exact ⟨hcall, hwait⟩

theorem start_posts (hapart : Apart tables) (hmem : callee ∈ tables) (ht : t.Faithful tables)
    (state : Nat) (member : String) (inputs : List Nat) :
    let started := (t.setResources (Rtl.taskCall t.resources callee.plan.place callee.resources
      member).2).addInsn state (Rtl.taskCall t.resources callee.plan.place callee.resources
        member).1 "" inputs []
    t.Posts [(state, .start callee.plan.place (callee.entrance? Rtl.taskKind) inputs)] started ∧
      started.Faithful tables := by
  let prepare (r : Rtl.Resource) : Rtl.Resource :=
    { (if member = "" then r else r.setParam "MEMBER" member) with
      callee := some callee.plan.place, parent := callee.entrance? Rtl.taskKind }
  have hprepare : ∀ r, (prepare r).kind = r.kind := fun r => by
    simp only [prepare]
    split <;> rfl
  have hnew : ∀ id, Attends tables (prepare (.new id Rtl.taskCallKind)) := fun id =>
    attends_of_callee hapart hmem rfl (fun _ => rfl) fun hkind => by
      rw [hprepare] at hkind
      exact absurd (show Rtl.taskCallKind = Rtl.taskReturnValueKind from hkind) (by decide)
  obtain ⟨r, hr, hkind, hcases⟩ := Rtl.findOrAdd_get t.resources Rtl.taskCallKind
    (·.callee = some callee.plan.place) hprepare
  have hattends : r.callee = some callee.plan.place ∧
      r.parent = callee.entrance? Rtl.taskKind := by
    rcases hcases with ⟨hold, hcallee⟩ | ⟨id, rfl⟩
    · exact ⟨of_decide_eq_true hcallee,
        (ht r hold callee hmem (of_decide_eq_true hcallee)).1 hkind⟩
    · exact ⟨rfl, rfl⟩
  refine ⟨(Posts.of_states (.setResources (Rtl.taskCall_spec _ _ _ _).1) rfl).trans
    (posts_addInsn fun id => ?_), ht.findOrAdd hnew⟩
  exact ⟨r, hr, hkind, hattends.1, hattends.2, rfl, rfl, rfl⟩

/-- A table waits for a task where the task hands its results back, if there is such a place. -/
theorem wait_posts (hapart : Apart tables) (hmem : callee ∈ tables) (ht : t.Faithful tables)
    (state : Nat) (outputs : List Nat) {unit : Nat} {resources : List Rtl.Resource}
    (h : Rtl.taskReturnValue t.resources callee.plan.place callee.resources =
      (some unit, resources)) :
    let waiting := (t.setResources resources).addInsn state unit "wait_notify" [] outputs
    ∃ entrance, callee.entrance? Rtl.taskReturnKind = some entrance ∧
      t.Posts [(state, .wait callee.plan.place entrance outputs)] waiting ∧
      waiting.Faithful tables := by
  have hgrows := (Rtl.taskReturnValue_spec h).1
  unfold Rtl.taskReturnValue at h
  split at h
  · cases h
  · rename_i k hk
    have hentrance : callee.entrance? Rtl.taskReturnKind = some ⟨callee.plan.place, k⟩ := by
      rw [entrance?, hk]
      rfl
    let prepare (r : Rtl.Resource) : Rtl.Resource :=
      { r with callee := some callee.plan.place, parent := some ⟨callee.plan.place, k⟩ }
    have hnew : ∀ id, Attends tables (prepare (.new id Rtl.taskReturnValueKind)) := fun id =>
      attends_of_callee hapart hmem rfl
        (fun hkind => absurd (show Rtl.taskReturnValueKind = Rtl.taskCallKind from hkind)
          (by decide)) fun _ => hentrance.symm
    obtain ⟨r, hr, hkind, hcases⟩ := Rtl.findOrAdd_get t.resources Rtl.taskReturnValueKind
      (·.callee = some callee.plan.place) (p := prepare) fun _ => rfl
    have hattends : r.callee = some callee.plan.place ∧
        r.parent = some ⟨callee.plan.place, k⟩ := by
      rcases hcases with ⟨hold, hcallee⟩ | ⟨id, rfl⟩
      · exact ⟨of_decide_eq_true hcallee, hentrance ▸
          (ht r hold callee hmem (of_decide_eq_true hcallee)).2 hkind⟩
      · exact ⟨rfl, rfl⟩
    cases h
    refine ⟨_, hentrance, (Posts.of_states (.setResources hgrows) rfl).trans
      (posts_addInsn fun id => ?_), ht.findOrAdd hnew⟩
    exact ⟨r, hr, hkind, hattends.1, hattends.2, rfl, rfl, rfl⟩

theorem callTask_posts (hapart : Apart tables) (hmem : callee ∈ tables) (ht : t.Faithful tables)
    (hinside : t.Inside) (hnext : t.successor? call.state = some (call.state + 1)) :
    ∃ t', callTask m t call callee = .ok t' ∧ t.Posts (callee.taskPosts call) t' ∧
      t'.Faithful tables := by
  obtain ⟨hstart, hfaithful⟩ :=
    start_posts hapart hmem ht call.state call.callee.member call.inputs
  have hnext' := hstart.grows.successor? hinside hnext
  simp only [callTask, taskPosts]
  split
  · exact ⟨_, rfl, hstart, hfaithful⟩
  · rw [hnext']
    simp only
    split
    · rename_i hnone
      refine ⟨_, rfl, ?_, hfaithful⟩
      have hentrance : callee.entrance? Rtl.taskReturnKind = none := by
        unfold Rtl.taskReturnValue at hnone
        split at hnone
        · rename_i hfirst
          rw [entrance?, hfirst]
          rfl
        · cases hnone
      rw [hentrance]
      exact hstart
    · rename_i unit resources hreturn
      obtain ⟨entrance, hentrance, hwait, hfaithful'⟩ :=
        wait_posts hapart hmem hfaithful (call.state + 1) call.outputs hreturn
      refine ⟨_, rfl, ?_, hfaithful'⟩
      rw [hentrance]
      exact hstart.trans hwait

/-- A table passes data to another through the register that feeds it. -/
theorem notify_posts (ht : t.Faithful tables) (state : Nat) (register : Rtl.ResourceRef)
    (width : UInt64) {inputs passed : List Nat} (hpassed : passed ≠ [])
    (hinputs : inputs ≠ [] → passed = inputs) {t₁ : ThreadTable}
    (hgrows : (t.setResources (Rtl.dataFlowCaller t.resources register width).2).Grows t₁)
    (hstates : t₁.states = t.states)
    (hresources : t₁.resources = (Rtl.dataFlowCaller t.resources register width).2) :
    let notified := t₁.addInsn state (Rtl.dataFlowCaller t.resources register width).1 "notify"
      passed []
    t.Posts [(state, .notify register inputs)] notified ∧ notified.Faithful tables := by
  let prepare (r : Rtl.Resource) : Rtl.Resource :=
    { r.setWidth width with parent := some register }
  have hnew : ∀ id, Attends tables (prepare (.new id Rtl.sharedWriterKind)) := by
    intro id callee hmem hcallee
    cases hcallee
  obtain ⟨r, hr, hkind, hcases⟩ := Rtl.findOrAdd_get t.resources Rtl.sharedWriterKind
    (·.parent = some register) (p := prepare) fun _ => rfl
  have hparent : r.parent = some register := by
    rcases hcases with ⟨-, hparent⟩ | ⟨id, rfl⟩
    · exact of_decide_eq_true hparent
    · rfl
  have hcaller : (t.setResources (Rtl.dataFlowCaller t.resources register width).2).Faithful
      tables := ht.findOrAdd hnew
  refine ⟨(Posts.of_states ((Grows.setResources (Rtl.dataFlowCaller_spec _ _ _).1).trans hgrows)
    hstates).trans (posts_addInsn fun id => ?_), fun r hr => hcaller r (hresources ▸ hr)⟩
  exact ⟨r, hresources ▸ hr, hkind, hparent, rfl, hpassed, hinputs, rfl⟩

theorem callDataFlow_posts (ht : t.Faithful tables) :
    ((∃ t', callDataFlow m t call callee = .ok t') ↔ callee.feed?.isSome = true) ∧
      ∀ t', callDataFlow m t call callee = .ok t' →
        t.Posts (callee.flowPosts call) t' ∧ t'.Faithful tables := by
  unfold callDataFlow
  split
  · rename_i i hinput
    cases hparent : (callee.resources[i]?).bind (·.parent) with
    | none =>
      have hfeed : callee.feed? = none := by simp [feed?, hinput, hparent]
      simp [hfeed]
    | some register =>
      have hfeed : callee.feed? = some register := by simp [feed?, hinput, hparent]
      simp only [flowPosts, hfeed]
      split
      · rename_i hempty
        refine ⟨by simp, fun t' h => ?_⟩
        cases h
        exact notify_posts ht _ _ _ (List.cons_ne_nil _ _)
          (fun hne => absurd (List.isEmpty_iff.mp hempty) hne) (.dummyArgument _) rfl rfl
      · rename_i hempty
        refine ⟨by simp, fun t' h => ?_⟩
        cases h
        exact notify_posts ht _ _ _ (fun heq => hempty (by simp [heq])) (fun _ => rfl) (.refl _) rfl
          rfl
  · rename_i hinputs
    have hfeed : callee.feed? = none := by
      unfold feed?
      split
      · rename_i i hinput
        exact absurd hinput (hinputs i)
      · rfl
    simp [hfeed]

/-- Calls that are wired one after the other: whether each succeeds does not depend on those before
it, and all post what they post alone. -/
theorem foldlM_posts {f : ThreadTable → TableCall → Except Fault ThreadTable}
    {posts : TableCall → List (Nat × Post)} {P : ThreadTable → Prop} {Q : TableCall → Prop}
    {calls : List TableCall} (hstep : ∀ call ∈ calls, ∀ a, P a →
      ((∃ a', f a call = .ok a') ↔ Q call) ∧
        ∀ a', f a call = .ok a' → a.Posts (posts call) a' ∧ P a') {a : ThreadTable} (ha : P a) :
    ((∃ a', calls.foldlM f a = .ok a') ↔ ∀ call ∈ calls, Q call) ∧
      ∀ a', calls.foldlM f a = .ok a' → a.Posts (calls.flatMap posts) a' ∧ P a' := by
  induction calls generalizing a with
  | nil =>
    refine ⟨iff_of_true ⟨a, rfl⟩ (by simp), fun a' h => ?_⟩
    cases h
    exact ⟨.of_states (.refl a) rfl, ha⟩
  | cons call rest ih =>
    obtain ⟨hiff, hposts⟩ := hstep call List.mem_cons_self a ha
    have hrest := fun call hcall => hstep call (List.mem_cons_of_mem _ hcall)
    simp only [List.foldlM_cons, except_bind_eq_ok, List.forall_mem_cons, List.flatMap_cons]
    refine ⟨⟨?_, ?_⟩, ?_⟩
    · rintro ⟨a', a₁, h₁, h⟩
      exact ⟨hiff.mp ⟨a₁, h₁⟩, (ih hrest (hposts a₁ h₁).2).1.mp ⟨a', h⟩⟩
    · rintro ⟨hcall, hall⟩
      obtain ⟨a₁, h₁⟩ := hiff.mpr hcall
      obtain ⟨a', h⟩ := (ih hrest (hposts a₁ h₁).2).1.mpr hall
      exact ⟨a', a₁, h₁, h⟩
    · rintro a' ⟨a₁, h₁, h⟩
      obtain ⟨hfirst, ha₁⟩ := hposts a₁ h₁
      obtain ⟨hlater, ha'⟩ := (ih hrest ha₁).2 a' h
      exact ⟨hfirst.trans hlater, ha'⟩

def taskTable? (tables : List ThreadTable) (c : Callee) : Option ThreadTable :=
  find? tables fun p => p.object = c.object && p.isTask && p.entry = c.method

def flowTable? (tables : List ThreadTable) (c : Callee) : Option ThreadTable :=
  find? tables fun p => p.object = c.object && !p.isTask && p.entry = c.method

def posts (tables : List ThreadTable) (t : ThreadTable) : List (Nat × Post) :=
  (t.taskCalls.flatMap fun call =>
    (taskTable? tables call.callee).toList.flatMap (·.taskPosts call)) ++
  t.flowCalls.flatMap fun call =>
    (flowTable? tables call.callee).toList.flatMap (·.flowPosts call)

/-- A table that can be wired: its calls find the tables that they are for, and those of tasks are
made in states that lead to the next one. -/
structure Wirable (plan : Plan) (tables : List ThreadTable) (t : ThreadTable) : Prop where
  faithful : t.Faithful tables
  inside : t.Inside
  next : ∀ call ∈ t.taskCalls, t.successor? call.state = some (call.state + 1)
  task : ∀ call ∈ t.taskCalls, (plan.module? call.callee.object).isSome = true ∧
    (taskTable? tables call.callee).isSome = true
  flow : ∀ call ∈ t.flowCalls, (plan.module? call.callee.object).isSome = true ∧
    (flowTable? tables call.callee).isSome = true

theorem wireTask_eq (hmodule : (plan.module? call.callee.object).isSome = true)
    (htable : taskTable? tables call.callee = some callee) :
    wireTask m plan tables t call = callTask m t call callee := by
  rw [taskTable?] at htable
  simp only [wireTask, htable]
  rw [if_neg (by simpa [Option.isSome_iff_ne_none] using hmodule)]

theorem wireDataFlow_eq (hmodule : (plan.module? call.callee.object).isSome = true)
    (htable : flowTable? tables call.callee = some callee) :
    wireDataFlow m plan tables t call = callDataFlow m t call callee := by
  rw [flowTable?] at htable
  simp only [wireDataFlow, htable]
  rw [if_neg (by simpa [Option.isSome_iff_ne_none] using hmodule)]

theorem wireTask_posts (hapart : Apart tables) (ht : t.Wirable plan tables)
    (hcall : call ∈ t.taskCalls) {a : ThreadTable} (hgrows : t.Grows a) (ha : a.Faithful tables)
    (hinside : a.Inside) :
    ∃ a', wireTask m plan tables a call = .ok a' ∧
      a.Posts ((taskTable? tables call.callee).toList.flatMap (·.taskPosts call)) a' ∧
      a'.Faithful tables := by
  obtain ⟨hmodule, htable⟩ := ht.task call hcall
  obtain ⟨callee, hcallee⟩ := Option.isSome_iff_exists.mp htable
  have hnext := hgrows.successor? ht.inside (ht.next call hcall)
  rw [wireTask_eq hmodule hcallee, hcallee, Option.toList_some, List.flatMap_singleton]
  exact callTask_posts hapart (find?_mem hcallee).1 ha hinside hnext

/-- Each call of data flow succeeds, when it is its turn, if some register feeds the table that is
called, and posts what it would post alone. -/
theorem wireDataFlow_posts (ht : t.Wirable plan tables) (hcall : call ∈ t.flowCalls)
    {a : ThreadTable} (ha : a.Faithful tables) :
    ((∃ a', wireDataFlow m plan tables a call = .ok a') ↔
        ((flowTable? tables call.callee).bind feed?).isSome = true) ∧
      ∀ a', wireDataFlow m plan tables a call = .ok a' →
        a.Posts ((flowTable? tables call.callee).toList.flatMap (·.flowPosts call)) a' ∧
          a'.Faithful tables := by
  obtain ⟨hmodule, htable⟩ := ht.flow call hcall
  obtain ⟨callee, hcallee⟩ := Option.isSome_iff_exists.mp htable
  rw [wireDataFlow_eq hmodule hcallee, hcallee, Option.bind_some, Option.toList_some,
    List.flatMap_singleton]
  exact callDataFlow_posts ha

/-- Wiring a table succeeds exactly if the tables that it passes data to are fed by some register,
and adds to each state what the calls post to it, and nothing else. -/
theorem wire_posts (hapart : Apart tables) (ht : t.Wirable plan tables) :
    ((∃ t', wire m plan tables t = .ok t') ↔ ∀ call ∈ t.flowCalls,
      ((flowTable? tables call.callee).bind feed?).isSome = true) ∧
    ∀ t', wire m plan tables t = .ok t' → t.Posts (t.posts tables) t' := by
  -- tasks: what is known of the table so far is that it grew and is faithful
  obtain ⟨htasks, htasksPost⟩ := foldlM_posts (P := fun a => t.Grows a ∧ a.Faithful tables ∧ a.Inside)
    (Q := fun _ => True) (fun call hcall a ⟨hgrows, ha, hinside⟩ => by
      obtain ⟨a', hrun, hposts, ha'⟩ :=
        wireTask_posts (m := m) hapart ht hcall hgrows ha hinside
      refine ⟨iff_of_true ⟨a', hrun⟩ trivial, fun a'' h => ?_⟩
      cases hrun.symm.trans h
      exact ⟨hposts, hgrows.trans hposts.grows, ha', hposts.inside hinside⟩)
    ⟨.refl t, ht.faithful, ht.inside⟩
  obtain ⟨t₁, h₁⟩ := htasks.mpr fun _ _ => trivial
  obtain ⟨hposts₁, hgrows₁, ht₁, -⟩ := htasksPost t₁ h₁
  -- data flow: the calls are those that the table had before the tasks were called
  obtain ⟨hflows, hflowsPost⟩ := foldlM_posts (P := fun a => a.Faithful tables)
    (fun call hcall a ha => wireDataFlow_posts (m := m) ht hcall ha) ht₁
  have hwire : wire m plan tables t = t.flowCalls.foldlM (wireDataFlow m plan tables) t₁ := by
    rw [wire, h₁, ← hgrows₁.flowCalls]
    rfl
  rw [hwire]
  exact ⟨hflows, fun t' h => hposts₁.trans (hflowsPost t' h).1⟩

end Wiring

section Kinds

/-- What only some elements contribute to. -/
theorem flatMap_if {α β : Type} {p : α → Prop} [DecidablePred p] (xs : List α) (g : α → List β) :
    (xs.flatMap fun x => if p x then g x else []) = (xs.filter p).flatMap g := by
  induction xs with
  | nil => rfl
  | cons x rest ih =>
    rw [List.flatMap_cons, ih, List.filter_cons]
    by_cases hx : p x <;> simp [hx]

variable (tables : List ThreadTable) (t callee : ThreadTable) (call : TableCall) (j : Nat)

theorem taskPosts_start : postsOfKind (callee.taskPosts call) j Rtl.taskCallKind =
    if call.state = j then
      [.start callee.plan.place (callee.entrance? Rtl.taskKind) call.inputs] else [] := by
  have hwait : Rtl.taskReturnValueKind ≠ Rtl.taskCallKind := by decide
  rw [taskPosts, postsOfKind_cons]
  cases callee.entrance? Rtl.taskReturnKind <;> cases call.outputs.isEmpty <;>
    simp [postsOfKind_cons, Post.kind, hwait]

theorem taskPosts_wait : postsOfKind (callee.taskPosts call) (j + 1) Rtl.taskReturnValueKind =
    if call.state = j then
      if call.outputs.isEmpty then []
      else ((callee.entrance? Rtl.taskReturnKind).map fun entrance =>
        .wait callee.plan.place entrance call.outputs).toList
    else [] := by
  have hstart : Rtl.taskCallKind ≠ Rtl.taskReturnValueKind := by decide
  rw [taskPosts, postsOfKind_cons]
  cases callee.entrance? Rtl.taskReturnKind <;> cases call.outputs.isEmpty <;>
    simp [postsOfKind_cons, Post.kind, hstart]

theorem taskPosts_notify : postsOfKind (callee.taskPosts call) j Rtl.sharedWriterKind = [] := by
  have hstart : Rtl.taskCallKind ≠ Rtl.sharedWriterKind := by decide
  have hwait : Rtl.taskReturnValueKind ≠ Rtl.sharedWriterKind := by decide
  rw [taskPosts, postsOfKind_cons]
  cases callee.entrance? Rtl.taskReturnKind <;> cases call.outputs.isEmpty <;>
    simp [postsOfKind_cons, Post.kind, hstart, hwait]

theorem flowPosts_notify : postsOfKind (callee.flowPosts call) j Rtl.sharedWriterKind =
    if call.state = j then
      (callee.feed?.map fun register => .notify register call.inputs).toList else [] := by
  rw [flowPosts]
  cases callee.feed? <;> simp [postsOfKind_cons, Post.kind]

theorem flowPosts_of_ne {kind : String} (hkind : kind ≠ Rtl.sharedWriterKind) :
    postsOfKind (callee.flowPosts call) j kind = [] := by
  rw [flowPosts]
  cases callee.feed? <;> simp [postsOfKind_cons, Post.kind, hkind.symm]

theorem posts_start : postsOfKind (t.posts tables) j Rtl.taskCallKind =
    (t.taskCalls.filter (·.state = j)).flatMap fun call =>
      (taskTable? tables call.callee).toList.map fun callee =>
        .start callee.plan.place (callee.entrance? Rtl.taskKind) call.inputs := by
  rw [posts, postsOfKind_append, postsOfKind_flatMap, postsOfKind_flatMap, ← flatMap_if]
  have hkind : Rtl.taskCallKind ≠ Rtl.sharedWriterKind := by decide
  simp only [postsOfKind_flatMap, taskPosts_start, flowPosts_of_ne _ _ _ hkind,
    List.flatMap_eq_nil_iff.mpr, implies_true, List.append_nil]
  refine congrArg (List.flatMap · _) (funext fun call => ?_)
  split
  · exact List.map_eq_flatMap.symm
  · simp

/-- A state waits for the tasks that are called in the state before it, if results are bound and
the task hands some back. -/
theorem posts_wait : postsOfKind (t.posts tables) (j + 1) Rtl.taskReturnValueKind =
    (t.taskCalls.filter (·.state = j)).flatMap fun call =>
      (taskTable? tables call.callee).toList.flatMap fun callee =>
        if call.outputs.isEmpty then []
        else ((callee.entrance? Rtl.taskReturnKind).map fun entrance =>
          .wait callee.plan.place entrance call.outputs).toList := by
  rw [posts, postsOfKind_append, postsOfKind_flatMap, postsOfKind_flatMap, ← flatMap_if]
  have hkind : Rtl.taskReturnValueKind ≠ Rtl.sharedWriterKind := by decide
  simp only [postsOfKind_flatMap, taskPosts_wait, flowPosts_of_ne _ _ _ hkind,
    List.flatMap_eq_nil_iff.mpr, implies_true, List.append_nil]
  refine congrArg (List.flatMap · _) (funext fun call => ?_)
  split <;> simp

theorem posts_notify : postsOfKind (t.posts tables) j Rtl.sharedWriterKind =
    (t.flowCalls.filter (·.state = j)).flatMap fun call =>
      (flowTable? tables call.callee).toList.flatMap fun callee =>
        (callee.feed?.map fun register => .notify register call.inputs).toList := by
  rw [posts, postsOfKind_append, postsOfKind_flatMap, postsOfKind_flatMap, ← flatMap_if]
  simp only [postsOfKind_flatMap, taskPosts_notify, flowPosts_notify, List.flatMap_eq_nil_iff.mpr,
    implies_true, List.nil_append]
  refine congrArg (List.flatMap · _) (funext fun call => ?_)
  split <;> simp

end Kinds

end ThreadTable
end Synth
end MachineSynth
