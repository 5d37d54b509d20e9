import Mathlib
import MachineSynth.Proofs.Restoring

/-! Troubles: what is wrong with an image that is not restored, in the order in which it is met. A
reference may lead nowhere, or a table may have more resources or states than the last table of its
number, which then runs out of places. Restoring reports the first trouble, and without any it
succeeds. -/
namespace MachineSynth

/-- Whether a computation stops with the first of some errors, and without any gives a value with a
property. -/
def Reports {ε α : Type} (P : α → Prop) (es : List ε) : Except ε α → Prop
  | .ok a => es = [] ∧ P a
  | .error e => es.head? = some e

namespace Reports

variable {ε α β : Type} {P : α → Prop} {Q : β → Prop} {es es' : List ε} {a : α} {e : ε}
  {r : Except ε α} {f : α → Except ε β}

theorem ok (h : P a) : Reports P ([] : List ε) (.ok a) := ⟨rfl, h⟩

theorem error (e : ε) (es : List ε) : Reports P (e :: es) (.error e) := rfl

theorem bind (hr : Reports P es r) (hf : ∀ a, P a → Reports Q es' (f a)) :
    Reports Q (es ++ es') (r >>= f) := by
  cases r with
  | error e =>
    obtain ⟨rest, rfl⟩ := List.head?_eq_some_iff.mp hr
    exact error e (rest ++ es')
  | ok a =>
    obtain ⟨rfl, ha⟩ := hr
    exact hf a ha

theorem bind_pure {g : α → β} (hr : Reports P es r) (hg : ∀ a, P a → Q (g a)) :
    Reports Q es (r >>= fun a => pure (g a)) := by
  have h := hr.bind fun a ha => ok (ε := ε) (hg a ha)
  rwa [List.append_nil] at h

theorem error_iff (h : Reports P es r) : r = .error e ↔ es.head? = some e := by
  cases r with
  | error e' =>
    rw [show es.head? = some e' from h, Option.some.injEq]
    exact ⟨fun h => Except.error.inj h, fun h => congrArg _ h⟩
  | ok a => simp [h.1]

theorem exists_ok_iff (h : Reports P es r) : (∃ a, r = .ok a) ↔ es = [] := by
  cases r with
  | ok a => simp [h.1]
  | error e =>
    obtain ⟨rest, rfl⟩ := List.head?_eq_some_iff.mp h
    simp

end Reports

/-- A change at one place is not seen where it changes nothing. -/
theorem map_modify_eq {α β : Type} {f : α → β} {g : α → α} {l : List α} {k : Nat}
    (h : ∀ x, l[k]? = some x → f (g x) = f x) : (l.modify k g).map f = l.map f := by
  refine List.ext_getElem? fun j => ?_
  rw [List.getElem?_map, List.getElem?_map, List.getElem?_modify]
  split
  · rename_i hk
    cases hj : l[j]? with
    | none => rfl
    | some x => exact congrArg some (h x (hk ▸ hj))
  · simp

namespace Image

def unknown (known ids : List Nat) : List Nat := ids.filter (· ∉ known)

/-- What is wrong with an instruction that is to go into the table `u`. -/
def Insn.troubles (table : String) (u : Table) (n : Insn) : List RestoreError :=
  (unknown (u.resources.map (·.id)) [n.resource]).map (.resource · table) ++
    ((unknown (u.states.map (·.id)) n.targets).map (.state · table) ++
      (unknown (u.registers.map (·.id)) (n.inputs ++ n.outputs)).map fun _ => .register table)

/-- The trouble with a reference, if there is one and it leads nowhere. -/
def lost {α β : Type} (find : α → Option β) (trouble : α → RestoreError) (r : Option α) :
    List RestoreError :=
  (r.toList.filter fun x => (find x).isNone).map trouble

def Resource.troubles (i : Image) (table : String) (r : Resource) : List RestoreError :=
  lost i.findResource? (fun _ => .resourceParent r.id table) r.parent ++
    lost i.findTable? (fun _ => .resourceCallee r.id table) r.callee

/-- The troubles of things that are put into so many places: there may be too few. -/
def spread {α : Type} (places : Nat) (troubles : α → List RestoreError) (xs : List α) :
    List RestoreError :=
  (xs.take places).flatMap troubles ++ if places < xs.length then [.fault .dangling] else []

def Table.troubles (i : Image) (table : String) (u t : Table) : List RestoreError :=
  spread u.resources.length (Resource.troubles i table) t.resources ++
    spread u.states.length (fun s => s.insns.flatMap (Insn.troubles table u)) t.states

def Module.troubles (i : Image) (m : Module) : List RestoreError :=
  lost i.findModule? .parentModule m.parent ++
    m.tables.flatMap fun t => (i.findTable? ⟨m.id, t.id⟩).toList.flatMap fun (p, u) =>
      Table.troubles i (i.skeleton.tableText p) u t

def Channel.troubles (i : Image) (c : Channel) : List RestoreError :=
  lost i.findResource? (fun _ => .channelEnd c.id) c.writer ++
    lost i.findResource? (fun _ => .channelEnd c.id) c.reader

def troubles (i : Image) : List RestoreError :=
  i.modules.flatMap (Module.troubles i) ++ i.channels.flatMap (Channel.troubles i)

section Reports

variable {i : Image} {table : String} {u : Table} {t : Rtl.Table} {d : Rtl.Design}

theorem lastIndex?_eq_none_iff {id : Nat} {ids : List Nat} :
    lastIndex? id ids = none ↔ id ∉ ids := by
  refine ⟨fun h hid => ?_, lastIndex?_of_not_mem⟩
  induction ids with
  | nil => cases hid
  | cons n rest ih =>
    simp only [lastIndex?] at h
    split at h
    · cases h
    · rename_i hrest
      split at h
      · cases h
      · rename_i hne
        exact (List.mem_cons.mp hid).elim (fun heq => hne heq.symm) (ih hrest)

theorem resolveAll_reports (known : List Nat) (missing : Nat → RestoreError) (ids : List Nat) :
    Reports (fun _ => True) ((unknown known ids).map missing) (resolveAll known missing ids) := by
  induction ids with
  | nil => exact .ok trivial
  | cons id rest ih =>
    simp only [resolveAll]
    cases h : lastIndex? id known with
    | none =>
      rw [unknown, List.filter_cons_of_pos (by simpa using lastIndex?_eq_none_iff.mp h)]
      exact .error _ _
    | some p =>
      have hid : id ∈ known := by
        by_contra hid
        rw [lastIndex?_of_not_mem hid] at h
        cases h
      rw [unknown, List.filter_cons_of_neg (by simpa using hid)]
      exact ih.bind_pure fun _ _ => trivial

/-- A table from which all references are left out, as tables are when restoring begins. -/
def bareTable (t : Rtl.Table) : Rtl.Table :=
  { t with
    resources := t.resources.map fun r => { r with parent := none, callee := none }
    states := t.states.map fun s => ⟨s.id, []⟩
    initial := none
    lastInsn := 0 }

def bare (d : Rtl.Design) : Rtl.Design :=
  ⟨d.modules.map fun m => { m with parent := none, tables := m.tables.map bareTable }, []⟩

/-- Whether a table is that of a table image, up to references. -/
def Stands (u : Table) (t : Rtl.Table) : Prop := bareTable t = skeletonTable u

/-- Whether a design is that of an image, up to references. -/
def Outlines (i : Image) (d : Rtl.Design) : Prop := bare d = i.skeleton

theorem Stands.ids (h : Stands u t) :
    t.registers = u.registers ∧ t.resources.map (·.id) = u.resources.map (·.id) ∧
      t.states.map (·.id) = u.states.map (·.id) := by
  refine ⟨congrArg (·.registers) h, ?_, ?_⟩
  · simpa [bareTable, skeletonTable, Function.comp_def] using
      congrArg (·.resources.map (·.id)) h
  · simpa [bareTable, skeletonTable, Function.comp_def] using congrArg (·.states.map (·.id)) h

theorem Stands.modify_resources {f : Rtl.Resource → Rtl.Resource} (h : Stands u t) (k : Nat)
    (hf : ∀ r,
      { f r with parent := none, callee := none } = { r with parent := none, callee := none }) :
    Stands u { t with resources := t.resources.modify k f } := by
  rw [Stands, ← h, bareTable, bareTable]
  simp only
  rw [map_modify_eq fun r _ => hf r]

theorem Stands.modify_states {f : Rtl.State → Rtl.State} (h : Stands u t) (k n : Nat)
    (hf : ∀ s, (f s).id = s.id) :
    Stands u { t with states := t.states.modify k f, lastInsn := n } := by
  rw [Stands, ← h, bareTable, bareTable]
  simp only
  rw [map_modify_eq fun s _ => by rw [hf s]]

theorem resolveInsn_reports (h : Stands u t) (n : Insn) :
    Reports (fun _ => True) (n.troubles table u) (resolveInsn t table n) := by
  obtain ⟨hregisters, hresources, hstates⟩ := h.ids
  have htargets := resolveAll_reports (u.states.map (·.id)) (.state · table) n.targets
  have hregs := resolveAll_reports (u.registers.map (·.id)) fun _ => .register table
  simp only [resolveInsn, hregisters, hresources, hstates, Insn.troubles, unknown,
    List.filter_append, List.map_append]
  cases hresource : lastIndex? n.resource (u.resources.map (·.id)) with
  | none =>
    have hnew := lastIndex?_eq_none_iff.mp hresource
    rw [List.filter_cons_of_pos (by simpa using hnew)]
    exact .error _ _
  | some p =>
    have hold : n.resource ∈ u.resources.map (·.id) := by
      by_contra hnew
      rw [lastIndex?_of_not_mem hnew] at hresource
      cases hresource
    rw [List.filter_cons_of_neg (by simpa using hold)]
    exact htargets.bind fun _ _ => (hregs n.inputs).bind fun _ _ =>
      (hregs n.outputs).bind_pure fun _ _ => trivial

theorem lost_of_some {α β : Type} {find : α → Option β} {x : α} {y : β} (h : find x = some y)
    (trouble : α → RestoreError) : lost find trouble (some x) = [] := by
  simp [lost, h]

theorem lost_of_none {α β : Type} {find : α → Option β} {x : α} (h : find x = none)
    (trouble : α → RestoreError) : lost find trouble (some x) = [trouble x] := by
  simp [lost, h]

def seek {α β : Type} (find : α → Option β) (trouble : α → RestoreError) :
    Option α → Restore (Option β)
  | none => return none
  | some x =>
    match find x with
    | some y => return some y
    | none => .error (trouble x)

theorem seek_reports {α β : Type} (find : α → Option β) (trouble : α → RestoreError)
    (r : Option α) : Reports (fun _ => True) (lost find trouble r) (seek find trouble r) := by
  cases r with
  | none => exact .ok trivial
  | some x =>
    rw [seek]
    cases h : find x with
    | none =>
      rw [lost_of_none h]
      exact .error _ _
    | some y =>
      rw [lost_of_some h]
      exact .ok trivial

theorem resolveResource_eq (r : Resource) : resolveResource i table r = (do
    let parent ← seek i.findResource? (fun _ => .resourceParent r.id table) r.parent
    let callee ← seek (fun n => (i.findTable? n).map (·.1))
      (fun _ => .resourceCallee r.id table) r.callee
    return (parent, callee)) := by
  rw [resolveResource]
  cases r.parent with
  | none =>
    cases r.callee with
    | none => rfl
    | some c =>
      simp only [seek]
      cases i.findTable? c <;> rfl
  | some p =>
    cases r.callee with
    | none =>
      simp only [seek]
      cases i.findResource? p <;> rfl
    | some c =>
      simp only [seek]
      cases i.findResource? p <;> cases i.findTable? c <;> rfl

theorem resolveResource_reports (r : Resource) :
    Reports (fun _ => True) (r.troubles i table) (resolveResource i table r) := by
  have hcallee := seek_reports (fun n => (i.findTable? n).map (·.1))
    (fun _ => .resourceCallee r.id table) r.callee
  simp only [lost, Option.isNone_map] at hcallee
  rw [resolveResource_eq, Resource.troubles]
  exact (seek_reports _ _ _).bind fun _ _ => hcallee.bind_pure fun _ _ => trivial

theorem spread_nil {α : Type} (places : Nat) (troubles : α → List RestoreError) :
    spread places troubles [] = [] := by
  simp [spread]

theorem spread_zero {α : Type} (troubles : α → List RestoreError) (x : α) (xs : List α) :
    spread 0 troubles (x :: xs) = [.fault .dangling] := by
  simp [spread]

theorem spread_succ {α : Type} (places : Nat) (troubles : α → List RestoreError) (x : α)
    (xs : List α) :
    spread (places + 1) troubles (x :: xs) = troubles x ++ spread places troubles xs := by
  simp [spread]

theorem resolveResources_reports (k : Nat) (rs : List Resource)
    (h : Stands u t) :
    Reports (Stands u)
      (spread (u.resources.length - k) (Resource.troubles i table) rs)
      (resolveResources i table k rs t) := by
  induction rs generalizing k t with
  | nil =>
    rw [spread_nil]
    exact .ok h
  | cons r rs ih =>
    have hlength : t.resources.length = u.resources.length := by
      simpa using congrArg List.length h.ids.2.1
    rw [resolveResources]
    split
    · rename_i hk
      obtain ⟨places, hplaces⟩ : ∃ places, u.resources.length - k = places + 1 :=
        ⟨u.resources.length - (k + 1), by omega⟩
      have hrest : u.resources.length - (k + 1) = places := by omega
      rw [hplaces, spread_succ, ← hrest]
      refine (resolveResource_reports r).bind ?_
      rintro ⟨parent, callee⟩ -
      exact ih (k + 1) (h.modify_resources (f := fun x => { x with
        parent := parent, callee := if callee.isSome then callee else x.callee }) k fun _ => rfl)
    · rename_i hk
      have hzero : u.resources.length - k = 0 := by omega
      rw [hzero, spread_zero]
      exact .error _ _

theorem resolveInsns_reports (k : Nat) (ns : List Insn) (h : Stands u t) :
    Reports (Stands u) (ns.flatMap (Insn.troubles table u))
      (resolveInsns table k ns t) := by
  induction ns generalizing t with
  | nil => exact .ok h
  | cons n ns ih =>
    rw [resolveInsns, List.flatMap_cons]
    exact (resolveInsn_reports h n).bind fun insn _ =>
      ih (h.modify_states (f := fun s => { s with insns := s.insns ++ [insn] }) k _ fun _ => rfl)

theorem resolveStates_reports (k : Nat) (ss : List State) (h : Stands u t) :
    Reports (Stands u)
      (spread (u.states.length - k) (fun s => s.insns.flatMap (Insn.troubles table u)) ss)
      (resolveStates table k ss t) := by
  induction ss generalizing k t with
  | nil =>
    rw [spread_nil]
    exact .ok h
  | cons s ss ih =>
    have hlength : t.states.length = u.states.length := by
      simpa using congrArg List.length h.ids.2.2
    rw [resolveStates]
    split
    · rename_i hk
      obtain ⟨places, hplaces⟩ : ∃ places, u.states.length - k = places + 1 :=
        ⟨u.states.length - (k + 1), by omega⟩
      have hrest : u.states.length - (k + 1) = places := by omega
      rw [hplaces, spread_succ, ← hrest]
      exact (resolveInsns_reports k s.insns h).bind fun _ ht => ih (k + 1) ht
    · rename_i hk
      have hzero : u.states.length - k = 0 := by omega
      rw [hzero, spread_zero]
      exact .error _ _

theorem resolveTable_reports (v : Table) (h : Stands u t) :
    Reports (Stands u) (Table.troubles i table u v)
      (resolveTable i table v t) := by
  refine (resolveResources_reports 0 v.resources h).bind fun t' ht => ?_
  refine resolveStates_reports 0 v.states ?_
  cases v.initial with
  | none => exact ht
  | some id => exact ht

section Place

variable {r : TableRef} {p : Rtl.TableRef}

theorem findTable?_eq_some (h : i.findTable? r = some (p, u)) : ∃ m, i.modules[p.module]? = some m ∧
    m.tables[p.table]? = some u ∧ r = ⟨m.id, u.id⟩ := by
  obtain ⟨⟨p', n, u'⟩, hfind, heq⟩ := Option.map_eq_some_iff.mp h
  cases heq
  have hn : n = r := by simpa using List.find?_some hfind
  obtain ⟨m, hm, ht, rfl⟩ :=
    mem_tableNumbers.mp (List.mem_reverse.mp (List.mem_of_find?_eq_some hfind))
  exact ⟨m, hm, ht, hn.symm⟩

theorem table?_bare (d : Rtl.Design) (p : Rtl.TableRef) :
    (bare d).table? p = (d.table? p).map bareTable := by
  simp only [Rtl.Design.table?, bare, List.getElem?_map]
  cases d.modules[p.module]? <;> simp

theorem tableText_bare (d : Rtl.Design) (p : Rtl.TableRef) :
    (bare d).tableText p = d.tableText p := by
  simp only [Rtl.Design.tableText, table?_bare]
  simp only [bare, List.getElem?_map]
  cases d.modules[p.module]? <;> cases d.table? p <;> rfl

theorem Outlines.table? (hd : Outlines i d) (h : i.findTable? r = some (p, u)) :
    ∃ t, d.table? p = some t ∧ Stands u t := by
  obtain ⟨m, hm, ht, -⟩ := findTable?_eq_some h
  have hskeleton : i.skeleton.table? p = some (skeletonTable u) := by
    simp [Rtl.Design.table?, skeleton, hm, ht]
  rw [← show bare d = i.skeleton from hd, table?_bare] at hskeleton
  exact Option.map_eq_some_iff.mp hskeleton

theorem bare_updateTable {t' : Rtl.Table} (ht : d.table? p = some t)
    (h : bareTable t' = bareTable t) : bare (d.updateTable p fun _ => t') = bare d := by
  obtain ⟨m, hm, ht⟩ := Option.bind_eq_some_iff.mp ht
  simp only [bare, Rtl.Design.updateTable]
  rw [map_modify_eq]
  intro m' hm'
  cases hm.symm.trans hm'
  simp only
  rw [map_modify_eq]
  intro t'' ht''
  cases ht.symm.trans ht''
  exact h

theorem Outlines.updateTable {t' : Rtl.Table} (hd : Outlines i d)
    (h : i.findTable? r = some (p, u)) (ht' : Stands u t') :
    Outlines i (d.updateTable p fun _ => t') := by
  obtain ⟨t, ht, hstands⟩ := hd.table? h
  exact (bare_updateTable ht (ht'.trans hstands.symm)).trans hd

end Place

theorem findTable?_isSome {m : Module} (hm : m ∈ i.modules) {t : Table} (ht : t ∈ m.tables) :
    ∃ p u, i.findTable? ⟨m.id, t.id⟩ = some (p, u) := by
  obtain ⟨pm, hpm⟩ := List.mem_iff_getElem?.mp hm
  obtain ⟨pt, hpt⟩ := List.mem_iff_getElem?.mp ht
  have hmem : (⟨pm, pt⟩, ⟨m.id, t.id⟩, t) ∈ i.tableNumbers :=
    mem_tableNumbers.mpr ⟨m, hpm, hpt, rfl⟩
  cases h : i.findTable? ⟨m.id, t.id⟩ with
  | some found => exact ⟨found.1, found.2, rfl⟩
  | none =>
    have hnone := List.find?_eq_none.mp (Option.map_eq_none_iff.mp h) _ (List.mem_reverse.mpr hmem)
    simp at hnone

theorem resolveTables_reports {m : Module} (hm : m ∈ i.modules) {ts : List Table}
    (hts : ∀ t ∈ ts, t ∈ m.tables) (hd : Outlines i d) :
    Reports (Outlines i)
      (ts.flatMap fun t => (i.findTable? ⟨m.id, t.id⟩).toList.flatMap fun (p, u) =>
        Table.troubles i (i.skeleton.tableText p) u t)
      (resolveTables i m.id ts d) := by
  induction ts generalizing d with
  | nil => exact .ok hd
  | cons t ts ih =>
    obtain ⟨ht, hts⟩ := List.forall_mem_cons.mp hts
    obtain ⟨p, u, hfind⟩ := findTable?_isSome hm ht
    obtain ⟨r, hr, hstands⟩ := hd.table? hfind
    have htext : d.tableText p = i.skeleton.tableText p := by
      rw [← tableText_bare, show bare d = i.skeleton from hd]
    simp only [resolveTables, hfind, Option.bind_some, hr, Option.map_some, htext,
      List.flatMap_cons, Option.toList_some, List.flatMap_nil, List.append_nil]
    exact (resolveTable_reports t hstands).bind fun r' hr' => ih hts (hd.updateTable hfind hr')

theorem findModule?_isSome {m : Module} (hm : m ∈ i.modules) :
    ∃ k, i.findModule? m.id = some k := by
  cases h : i.findModule? m.id with
  | some k => exact ⟨k, rfl⟩
  | none => exact absurd (List.mem_map_of_mem hm) (lastIndex?_eq_none_iff.mp h)

theorem Outlines.setParent (hd : Outlines i d) (k q : Nat) :
    Outlines i { d with modules := d.modules.modify k fun m => { m with parent := some q } } := by
  rw [Outlines, ← show bare d = i.skeleton from hd, bare, bare]
  exact congrArg (Rtl.Design.mk · []) (map_modify_eq fun _ _ => rfl)

theorem resolveModules_reports {ms : List Module} (hms : ∀ m ∈ ms, m ∈ i.modules)
    (hd : Outlines i d) :
    Reports (Outlines i) (ms.flatMap (Module.troubles i)) (resolveModules i ms d) := by
  induction ms generalizing d with
  | nil => exact .ok hd
  | cons m ms ih =>
    obtain ⟨hm, hms⟩ := List.forall_mem_cons.mp hms
    rw [resolveModules, List.flatMap_cons, Module.troubles, List.append_assoc]
    have hrest : ∀ {d'}, Outlines i d' → Reports (Outlines i) _
        (resolveTables i m.id m.tables d' >>= resolveModules i ms) := fun hd' =>
      (resolveTables_reports hm (fun _ ht => ht) hd').bind fun _ hd'' => ih hms hd''
    cases hparent : m.parent with
    | none => exact hrest hd
    | some p =>
      obtain ⟨k, hk⟩ := findModule?_isSome hm
      cases hp : i.findModule? p with
      | none =>
        rw [lost_of_none hp]
        simp only [hp]
        exact .error _ _
      | some q =>
        rw [lost_of_some hp]
        simp only [hp, hk]
        exact hrest (hd.setParent k q)

theorem resolveEnd_reports (id : Nat) (r : Option ResourceRef) :
    Reports (fun _ => True) (lost i.findResource? (fun _ => .channelEnd id) r)
      (resolveEnd i id r) := by
  have h : resolveEnd i id r = seek i.findResource? (fun _ => .channelEnd id) r := by
    cases r with
    | none => rfl
    | some r =>
      rw [resolveEnd, seek]
      cases i.findResource? r <;> rfl
  rw [h]
  exact seek_reports _ _ _

theorem resolveChannels_reports (cs : List Channel) :
    Reports (fun _ => True) (cs.flatMap (Channel.troubles i)) (resolveChannels i cs) := by
  induction cs with
  | nil => exact .ok trivial
  | cons c cs ih =>
    rw [resolveChannels, List.flatMap_cons, Channel.troubles, List.append_assoc]
    exact (resolveEnd_reports c.id c.writer).bind fun writer _ =>
      (resolveEnd_reports c.id c.reader).bind fun reader _ => ih.bind_pure fun _ _ => trivial

theorem outlines_skeleton (i : Image) : Outlines i i.skeleton := by
  simp [Outlines, bare, skeleton, bareTable, skeletonTable, Function.comp_def]

/-- An image is restored if there is no trouble with it, and else the first trouble is reported. -/
theorem restore_reports (i : Image) : Reports (fun _ => True) i.troubles i.restore :=
  (resolveModules_reports (fun _ hm => hm) (outlines_skeleton i)).bind fun _ _ =>
    (resolveChannels_reports i.channels).bind_pure fun _ _ => trivial

end Reports

end Image
end MachineSynth
