import Mathlib
import MachineSynth.Proofs.Journal.Storage
import MachineSynth.Proofs.Threads

/-! Widths of data flow: what a method's arguments take together, how a width is read back from a
parameter, and what a pool records of the register that feeds its data-flow input. -/
namespace MachineSynth

namespace Numeral

theorem digit?_of_isDigit {c : Char} (h : c.isDigit = true) :
    digit? c = some (c.toNat - '0'.toNat) := by
  have hrange : '0' ≤ c ∧ c ≤ '9' := by
    simpa [Char.isDigit, Char.le_def] using h
  simp [digit?, hrange]

theorem digits?_eq_ofDigitChars {cs : List Char} (h : ∀ c ∈ cs, c.isDigit = true) (n : Nat) :
    digits? 10 n cs = some (Nat.ofDigitChars 10 cs n) := by
  induction cs generalizing n with
  | nil => rfl
  | cons c rest ih =>
    have hlt : c.toNat - '0'.toNat < 10 := by
      have hrange : '0' ≤ c ∧ c ≤ '9' := by
        simpa [Char.isDigit, Char.le_def] using h c List.mem_cons_self
      have hle : c.toNat ≤ '9'.toNat := hrange.2
      have : '9'.toNat - '0'.toNat = 9 := rfl
      omega
    simp only [digits?, digit?_of_isDigit (h c List.mem_cons_self), if_pos hlt]
    exact ih (fun d hd => h d (List.mem_cons_of_mem _ hd)) _

/-- A natural that is printed is read back, unless it has too many bits. -/
theorem natural?_toString (bits n : Nat) :
    natural? bits (toString n) = if n < 2 ^ bits then some n else none := by
  have hlist : (toString n).toList = Nat.toDigits 10 n := Nat.toList_repr
  have hdigits : digits? 10 0 (Nat.toDigits 10 n) = _ := digits?_eq_ofDigitChars
    (fun c hc => Nat.isDigit_of_mem_toDigits (by decide) (by decide) hc) 0
  rw [Nat.ofDigitChars_toDigits (by decide) (by decide)] at hdigits
  unfold natural?
  rw [hlist]
  split
  · rename_i hnil
    exact absurd hnil Nat.toDigits_ne_nil
  · simp [hdigits]

end Numeral

namespace Rtl

/-- A width of more than 32 bits is printed, but not read back. -/
theorem Params.width_of_get? {p : Params} {width : UInt64}
    (h : p.get? "WIDTH" = some (toString width)) :
    p.width = if width.toNat < 2 ^ 32 then width else 0 := by
  have hread : Numeral.natural? 32 (toString width) = _ := Numeral.natural?_toString 32 width.toNat
  by_cases hlt : width.toNat < 2 ^ 32
  · rw [if_pos hlt] at hread ⊢
    simp [Params.width, h, hread]
  · rw [if_neg hlt] at hread ⊢
    simp [Params.width, h, hread]

end Rtl

def Method.flowWidth (f : Method) : Nat :=
  max (f.args.map fun d => max (Synth.Pool.declWidth d).toNat 1).sum 1

def Method.flowWord (f : Method) : UInt64 :=
  Synth.Lower.dataFlowWidth (f.args.map fun d => .unsigned (Synth.Pool.declWidth d))

section Words

theorem toNat_max (a b : UInt64) : (max a b).toNat = max a.toNat b.toNat := by
  have hmax : max a b = if a ≤ b then b else a := rfl
  rw [hmax, max_def]
  simp only [UInt64.le_iff_toNat_le]
  split <;> rfl

theorem toNat_foldl_width (types : List Rtl.ValueType) (w : UInt64) :
    (types.foldl (fun w t => w + max t.width 1) w).toNat =
      (w.toNat + (types.map fun t => max t.width.toNat 1).sum) % 2 ^ 64 := by
  induction types generalizing w with
  | nil => simp [Nat.mod_eq_of_lt w.toNat_lt]
  | cons t rest ih =>
    rw [List.foldl_cons, ih, UInt64.toNat_add, toNat_max]
    simp [Nat.add_assoc]

/-- The width of all arguments is set as it is, unless it has more than 64 bits. -/
theorem Method.toNat_flowWord {f : Method} (h : f.flowWidth < 2 ^ 64) :
    f.flowWord.toNat = f.flowWidth := by
  have hsum : (f.args.map fun d => max (Synth.Pool.declWidth d).toNat 1).sum < 2 ^ 64 :=
    (Nat.le_max_left _ 1).trans_lt h
  have hwidths : ((f.args.map fun d => Rtl.ValueType.unsigned (Synth.Pool.declWidth d)).map
      fun t => max t.width.toNat 1) = f.args.map fun d => max (Synth.Pool.declWidth d).toNat 1 :=
    List.map_map
  calc f.flowWord.toNat
      = max ((f.args.map fun d => Rtl.ValueType.unsigned (Synth.Pool.declWidth d)).foldl
          (fun w (t : Rtl.ValueType) => w + max t.width 1) 0).toNat 1 := toNat_max _ _
    _ = max ((f.args.map fun d => max (Synth.Pool.declWidth d).toNat 1).sum % 2 ^ 64) 1 := by
      rw [toNat_foldl_width, hwidths, UInt64.toNat_zero, Nat.zero_add]
    _ = f.flowWidth := by rw [Nat.mod_eq_of_lt hsum, Method.flowWidth]

end Words

namespace Synth

namespace Pool

/-- Whether the register that feeds data-flow inputs records a width, if there is such a register,
and nothing else; no writer has a register to write yet. -/
structure Flowing (width : UInt64) (p : Pool) : Prop extends p.Sound where
  feeds : ∀ {j : Nat}, p.keys.lookup Entity.flow.heldKey = some j →
    ∃ r, p.resources[j]? = some r ∧ r.params = [("WIDTH", toString width)]
  writers : ∀ {i : Nat} {r : Rtl.Resource}, p.resources[i]? = some r →
    r.kind = Rtl.sharedWriterKind → r.parent = none

variable {p : Pool} {width : UInt64} {key : ResourceKey} {prepare : Rtl.Resource → Rtl.Resource}
  {i : Nat} {r : Rtl.Resource}

theorem Planned.flowing (h : p.Planned) : p.Flowing width := by
  refine { h.toSound with feeds := fun hkey => ?_, writers := fun hr hkind => ?_ }
  · obtain ⟨r, hr, hkind⟩ := Option.map_eq_some_iff.mp (h.kind hkey)
    have hport := h.ports r (List.mem_of_getElem? hr)
    rw [hkind] at hport
    exact absurd hport (by simp [Entity.heldKey, plannedKinds])
  · have hport := h.ports _ (List.mem_of_getElem? hr)
    rw [hkind] at hport
    exact absurd hport (by decide)

namespace Flowing

theorem request (h : p.Flowing width) (hne : Entity.flow.heldKey ≠ key)
    (hkind : ∀ r, (prepare r).kind = r.kind) (hparent : ∀ r, (prepare r).parent = r.parent) :
    (p.request key prepare).2.Flowing width := by
  refine { (request_takes key hkind).sound h.toSound with
    feeds := fun hkey => ?_, writers := fun hr hwriter => ?_ }
  · rw [lookup_request_of_ne p prepare hne] at hkey
    obtain ⟨r, hr, hparams⟩ := h.feeds hkey
    exact ⟨r, request_keeps hr, hparams⟩
  · rcases mem_request hr with hr | rfl
    · exact h.writers hr hwriter
    · rw [hparent]
      rfl

theorem add (h : p.Flowing width) (kind : String) : (p.add kind).2.Flowing width := by
  refine { add_sound h.toSound kind with feeds := fun hkey => ?_, writers := fun hr hwriter => ?_ }
  · obtain ⟨r, hr, hparams⟩ := h.feeds hkey
    exact ⟨r, getElem?_of_isPrefix (List.prefix_append _ _) hr, hparams⟩
  · rcases mem_add hr with hr | ⟨-, rfl⟩
    · exact h.writers hr hwriter
    · rfl

theorem transition (h : p.Flowing width) : p.transition.2.Flowing width := by
  unfold Pool.transition
  split
  · exact h
  · exact h.add _

/-- A width is set for a register that feeds no data-flow input. -/
theorem hold (h : p.Flowing width) {e : Entity} (he : e ≠ .flow) (w : UInt64) :
    ((p.sharedMember e true false).2.update (p.sharedMember e true false).1
      (·.setWidth w)).Flowing width := by
  have hheld : (p.sharedMember e true false).2.Flowing width :=
    h.request (Entity.heldKey_ne he.symm) (fun _ => rfl) fun _ => rfl
  have hself : (p.sharedMember e true false).2.keys.lookup e.heldKey =
      some (p.sharedMember e true false).1 := lookup_request p _ _
  have hsound : ((p.sharedMember e true false).2.update (p.sharedMember e true false).1
      (·.setWidth w)).Sound := update_sound hheld.toSound fun _ _ => rfl
  refine { hsound with
    feeds := fun {j} hkey => ?_, writers := fun hr hwriter => ?_ }
  · obtain ⟨r, hr, hparams⟩ := hheld.feeds hkey
    have hj : (p.sharedMember e true false).1 ≠ j := by
      rintro rfl
      exact Entity.heldKey_ne he (hheld.unique hself hkey)
    exact ⟨r, by simp [getElem?_update, hr, hj], hparams⟩
  · rw [getElem?_update] at hr
    obtain ⟨r₀, hr₀, rfl⟩ := Option.map_eq_some_iff.mp hr
    split at hwriter <;> rename_i hi
    · rw [if_pos hi]
      exact (hheld.writers hr₀ hwriter : r₀.parent = none)
    · rw [if_neg hi]
      exact hheld.writers hr₀ hwriter

theorem dataFlow (h : p.Flowing width) : (p.dataFlow width).2.Flowing width := by
  have hsound := (dataFlow_takes width).sound h.toSound
  cases hkey : p.keys.lookup ⟨Rtl.dataFlowKind, "", 0, .truth⟩ with
  | some i =>
    have hsame : p.dataFlow width = (i, p) := by simp [Pool.dataFlow, hkey]
    exact hsame ▸ h
  | none =>
    have hresource := getElem?_dataFlow hkey width
    have hadded := h.add Rtl.dataFlowKind
    -- the register is a new one, or has the same width already
    have hfeed : ∃ r, p.feed.2.resources[p.feed.1]? = some r ∧
        r.params.setWidth width = [("WIDTH", toString width)] := by
      cases hlookup : (p.add Rtl.dataFlowKind).2.keys.lookup Entity.flow.heldKey with
      | some j =>
        obtain ⟨r, hr, hparams⟩ := hadded.feeds hlookup
        rw [feed, request_of_some id hlookup]
        exact ⟨r, hr, by simp [hparams, Rtl.Params.setWidth, Rtl.Params.set]⟩
      | none =>
        rw [feed, request_of_none id hlookup]
        exact ⟨_, List.getElem?_concat_length, rfl⟩
    refine { hsound with feeds := fun {j} hj => ?_, writers := fun {i r} hr hwriter => ?_ }
    · rw [lookup_dataFlow hkey, feed, lookup_request, Option.some.injEq] at hj
      subst hj
      obtain ⟨r, hr, hparams⟩ := hfeed
      rw [feed] at hr
      refine ⟨_, by rw [hresource, feed, hr, Option.map_some], ?_⟩
      dsimp only
      split <;> simpa [Rtl.Resource.setWidth] using hparams
    · rcases mem_dataFlow hkey width hr with ⟨r₀, hr₀, hkind, hparent⟩ | ⟨-, hkind⟩ | hkind
      · exact hparent ▸ h.writers hr₀ (hkind.trans hwriter)
      · exact absurd (hkind.symm.trans hwriter) (by decide)
      · exact absurd (hkind.symm.trans hwriter) (by decide)

end Flowing

end Pool

open Builder (Act)

def Builder.Act.Flows (width : UInt64) : Act → Prop
  | request key prepare => Pool.Suits key prepare
  | hold e _ => e ≠ .flow
  | dataFlow w => w = width
  | _ => True

variable {m : Machine} {owners : OwnershipTable} {thread : ThreadId} {width : UInt64} {b b' : Builder}

theorem Pool.Flowing.onPool {p : Pool} {act : Act} (hact : act.Flows width)
    (hp : p.Flowing width) : (act.onPool p).Flowing width := by
  cases act with
  | request key prepare =>
    exact hp.request (fun heq => hact.plain.1 (heq ▸ rfl)) hact.kind hact.parent
  | transition => exact hp.transition
  | dataFlow w =>
    obtain rfl : w = width := hact
    exact hp.dataFlow
  | hold e w => exact hp.hold hact w
  | _ => exact hp

theorem permits_flows (owners : OwnershipTable) (thread : ThreadId)
    (hflow : Entity.flow.declared? m = none) :
    Lower.Permits m owners thread (Act.Flows width) :=
  Lower.permits_of_lowers fun act hact => by
    cases act with
    | request key prepare => exact hact.1
    | hold e w =>
      rintro rfl
      obtain ⟨⟨initial, he⟩, -⟩ := hact
      cases hflow.symm.trans he
    | dataFlow w => exact hact.elim
    | _ => trivial

theorem permitsChannels_flows : Lower.PermitsChannels (Act.Flows width) :=
  ⟨fun h _ => h, fun _ _ _ _ _ => trivial⟩

theorem permitsTasks_flows : Lower.PermitsTasks (Act.Flows width) := Lower.permitsTasks_of_suits id

namespace Lower

variable {s : Site} {l l' : Lowering}

def Receives (registers : List Rtl.Register) (rs : List Nat) (args : List VarDecl) : Prop :=
  List.Forall₂ (fun r d => (registers[r]?).map (·.type) =
    some (.unsigned ((argumentWidth? d).getD 0))) rs args

theorem Receives.mono {registers registers' : List Rtl.Register} {rs : List Nat}
    {args : List VarDecl} (h : Receives registers rs args) (hR : registers <+: registers') :
    Receives registers' rs args := by
  refine List.Forall₂.imp (fun r d hr => ?_) h
  obtain ⟨x, hx, htype⟩ := Option.map_eq_some_iff.mp hr
  rw [getElem?_of_isPrefix hR hx, Option.map_some, htype]

theorem argumentRegisters_receives {i : Nat} {args : List VarDecl} {rs : List Nat} (hl : l.Sound)
    (h : (argumentRegisters s i args).run l = .ok (rs, l')) :
    Receives l'.builder.registers rs args := by
  induction args generalizing i l rs with
  | nil =>
    cases run_pure_eq_ok.mp h
    exact .nil
  | cons d rest ih =>
    simp only [argumentRegisters, run_bind_eq_ok] at h
    obtain ⟨r, l₁, hr, h⟩ := h
    have q₁ : Lowering.Quiet .all l l₁ := storage_quiet hl hr
    have hregister : (l₁.builder.registers[r]?).map (·.type) =
        some (.unsigned ((argumentWidth? d).getD 0)) := by
      cases run_build_eq_ok.mp hr
      simp [Builder.storage, Builder.freshRegister, Builder.addRegister]
    -- the other registers come after the first, whether or not this is bound
    have hrest : ∀ {l₂}, Lowering.Quiet .all l₁ l₂ → (do
        return r :: (← argumentRegisters s (i + 1) rest)).run l₂ = .ok (rs, l') →
        Receives l'.builder.registers rs (d :: rest) := by
      intro l₂ q₂ h
      rw [run_bind_eq_ok] at h
      obtain ⟨rs', l₃, hrs, h⟩ := h
      have q₃ : Lowering.Quiet .all l₂ l₃ := argumentRegisters_quiet q₂.sound hrs
      cases run_pure_eq_ok.mp h
      obtain ⟨x, hx, htype⟩ := Option.map_eq_some_iff.mp hregister
      refine .cons ?_ (ih q₂.sound hrs)
      rw [getElem?_of_isPrefix (q₂.trans q₃).builder.registers hx, Option.map_some, htype]
    split at h
    · rw [run_bind_eq_ok] at h
      obtain ⟨_, l₂, hbind, h⟩ := h
      exact hrest (bindLocal_quiet q₁.sound hbind) h
    · exact hrest (q₁.sound.refl_quiet .all) h

theorem Receives.types {registers : List Rtl.Register} {rs : List Nat} {args : List VarDecl}
    (h : Receives registers rs args) (hargs : ∀ d ∈ args, (argumentWidth? d).isSome) :
    rs.filterMap (fun r => (registers[r]?).map (·.type)) =
      args.map fun d => .unsigned (Pool.declWidth d) := by
  induction h with
  | nil => rfl
  | @cons r d rs args hr _ ih =>
    have hwidth : (argumentWidth? d).getD 0 = Pool.declWidth d := by
      have hd := hargs d List.mem_cons_self
      unfold argumentWidth? Pool.declWidth at *
      split at hd <;> simp_all
    rw [hwidth] at hr
    have hrest := ih fun d hd => hargs d (List.mem_cons_of_mem _ hd)
    simp only [List.filterMap_cons, hr, hrest, List.map_cons]

theorem entry_receives {e : Rtl.Insn} (hl : l.Sound) (h : (entry s).run l = .ok (e, l')) :
    e.inputs.filterMap (fun r => (l'.builder.registers[r]?).map (·.type)) =
      s.method.args.map fun d => .unsigned (Pool.declWidth d) := by
  simp only [entry, run_bind_eq_ok] at h
  obtain ⟨unit, l₁, hunit, i, l₂, hi, inputs, l₃, hinputs, outputs, l₄, houtputs, h⟩ := h
  obtain ⟨q₁, -⟩ := resource_quiet (u := .none) hl Pool.pseudo_takes hunit
  have q₂ : Lowering.Quiet .none l₁ l₂ := insn_quiet q₁.sound hi
  have q₃ : Lowering.Quiet .none l₂ l₃ := argumentRegisters_quiet q₂.sound hinputs
  have q₄ : Lowering.Quiet .none l₃ l₄ := resultRegisters_quiet q₃.sound houtputs
  have hreceives := (argumentRegisters_receives q₂.sound hinputs).mono q₄.builder.registers
  split at h
  · exact absurd h run_error_ne_ok
  · rename_i hnone
    cases run_pure_eq_ok.mp h
    refine hreceives.types fun d hd => ?_
    have hsome := List.find?_eq_none.mp hnone d hd
    simpa [Option.isSome_iff_ne_none] using hsome

theorem flowing_of_logs {α : Type} {x : Lower α} {a : α} (hx : Logs (Act.Flows width) x)
    (h : x.run l = .ok (a, l')) (hl : l.builder.pool.Flowing width) :
    l'.builder.pool.Flowing width :=
  hx.pool Pool.Flowing.onPool h hl

theorem wait_flowing (hP : Permits s.machine s.owners s.thread (Act.Flows s.method.flowWord))
    {e : Rtl.Insn} (hl : l.builder.pool.Flowing s.method.flowWord)
    (hinputs : e.inputs.filterMap (fun r => (l.builder.registers[r]?).map (·.type)) =
      s.method.args.map fun d => .unsigned (Pool.declWidth d))
    (h : (wait s e).run l = .ok ((), l')) : l'.builder.pool.Flowing s.method.flowWord := by
  simp only [wait, run_bind_eq_ok, run_get_eq_ok] at h
  obtain ⟨_, _, hget, h⟩ := h
  cases hget
  split at h
  · exact flowing_of_logs ((logged_build _ permitsTasks_flows.start (fun _ => rfl) fun _ _ => rfl).bind
      fun unit => logged_emit hP unit _ _ _) h hl
  · split at h
    · rw [hinputs, run_bind_eq_ok] at h
      obtain ⟨unit, l₁, hunit, hemit⟩ := h
      cases run_build_eq_ok.mp hunit
      exact flowing_of_logs (logged_emit hP _ _ _ _) hemit hl.dataFlow
    · exact flowing_of_logs
        ((logged_ofKind hP _ (by decide)).bind fun unit => logged_emit hP unit _ _ _) h hl

/-- What is done before the code asks for no other width. -/
theorem opening_flowing (hP : Permits s.machine s.owners s.thread (Act.Flows s.method.flowWord))
    {e : Rtl.Insn} (hsound : l.Sound) (hl : l.builder.pool.Flowing s.method.flowWord)
    (h : (opening s).run l = .ok (e, l')) : l'.builder.pool.Flowing s.method.flowWord := by
  simp only [opening, run_bind_eq_ok] at h
  obtain ⟨e', l₁, he, h⟩ := h
  have hl₁ := flowing_of_logs (logged_entry hP) he hl
  split at h
  · rw [run_bind_eq_ok] at h
    obtain ⟨_, l₂, hwait, h⟩ := h
    cases run_pure_eq_ok.mp h
    exact wait_flowing hP hl₁ (entry_receives hsound he) hwait
  · cases run_pure_eq_ok.mp h
    exact hl₁

end Lower

section Methods

/-- A method that threads may wait in asks for the width of its arguments, the others for none. -/
theorem Site.lower_flowing (hflow : Entity.flow.declared? m = none) {object : Nat} {slot : String}
    {role : Role} {c : Context} (hb : b.Sound) (hpool : b.pool.Flowing width)
    (hwidth : role ≠ .inner → ∀ o f, m.object? object = some o → o.method? slot = some f →
      f.flowWord = width)
    (h : lower m owners thread object slot role b = .ok (c, b')) : b'.pool.Flowing width := by
  have hP : Lower.Permits m owners thread (Act.Flows width) := permits_flows owners thread hflow
  obtain ⟨o, f, e, l, ho, hf, himpl, -, rfl, hcases⟩ := lower_cases h
  rcases hcases with ⟨-, hrun⟩ | ⟨-, -, hrun⟩ | ⟨hnative, -, -, hrun⟩
  · exact Lower.flowing_of_logs (Lower.logged_imported hP) hrun hpool
  · exact Lower.flowing_of_logs (Lower.logged_port hP) hrun hpool
  · simp only [Lower.body_eq, run_bind_eq_ok] at hrun
    obtain ⟨e', l₁, hopening, starts, l₂, hcode, hclosing⟩ := hrun
    have hopened : l₁.builder.pool.Flowing width := by
      by_cases hrole : role = .inner
      · exact Lower.flowing_of_logs
          (Lower.logged_opening hP (fun _ => permitsTasks_flows) fun hne => absurd hrole hne)
          hopening hpool
      · have hmethod : f = c.method := by simpa [implementation?, hnative] using himpl
        obtain rfl : c.method.flowWord = width := hmethod ▸ hwidth hrole o f ho hf
        exact Lower.opening_flowing hP (start_sound hb object) hpool hopening
    exact Lower.flowing_of_logs (Lower.logged_closing hP (fun _ => permitsTasks_flows) e' starts) hclosing
      (Lower.flowing_of_logs (Lower.logged_code hP permitsChannels_flows _) hcode hopened)

namespace ThreadTable

variable {t : ThreadPlan}

theorem lowerAll_flowing (hflow : Entity.flow.declared? m = none) {names : List String}
    {cs : List (String × Context)} (hb : b.Sound) (hpool : b.pool.Flowing width)
    (hwidth : ∀ o f, m.object? t.object = some o → o.method? t.entry = some f → f.flowWord = width)
    (h : lowerAll m owners thread t names b = .ok (cs, b')) : b'.pool.Flowing width := by
  induction names generalizing b cs with
  | nil =>
    cases h
    exact hpool
  | cons name rest ih =>
    simp only [lowerAll, except_bind_eq_ok] at h
    obtain ⟨⟨c, b₁⟩, hlower, ⟨cs', b₂⟩, hrest, h⟩ := h
    cases h
    refine ih (Site.lower_spec hb hlower).1 (Site.lower_flowing hflow hb hpool ?_ hlower) hrest
    -- only the entry of the thread has a part of its own
    intro hrole o f ho hf
    by_cases hname : name = t.entry
    · exact hwidth o f ho (hname ▸ hf)
    · exact absurd (if_neg hname) hrole

theorem build_flowing {limit : Nat} {table : ThreadTable} (hflow : Entity.flow.declared? m = none)
    (hpool : t.pool.Planned) (h : build m owners limit thread t = .ok table) :
    ∃ f, (m.object? t.object).bind (·.method? t.entry) = some f ∧
      table.builder.pool.Flowing f.flowWord := by
  obtain ⟨b, entry, first, last, x, hlower, hentry, hcopy, htable⟩ := build_eq_ok h
  have hsound := Builder.sound_ofPool hpool.toSound
  obtain ⟨-, -, -, hall⟩ := lowerAll_spec hsound hlower
  obtain ⟨-, b₁, b₂, -, -, hlowered, -⟩ := hall t.entry entry (mem_of_lookup hentry)
  obtain ⟨o, f, -, -, ho, hf, -⟩ := Site.lower_cases hlowered
  refine ⟨f, by simp [ho, hf], ?_⟩
  have hlowerAll : b.pool.Flowing f.flowWord := by
    refine lowerAll_flowing hflow hsound hpool.flowing (fun o' f' ho' hf' => ?_) hlower
    cases ho.symm.trans ho'
    cases hf.symm.trans hf'
    rfl
  have hexpanded : x.builder.pool.Flowing f.flowWord :=
    (Expand.logs_copy (Expand.permits_of_lower (permits_flows owners thread hflow)) _ _ _ _).pool
      Pool.Flowing.onPool hcopy hlowerAll
  rw [htable]
  exact hexpanded

end ThreadTable

end Methods

end Synth
end MachineSynth
