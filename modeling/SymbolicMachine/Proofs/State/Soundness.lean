import SymbolicMachine.Proofs.State.Operations
/-!
# Sound states

In a sound state every address leads to an object: the ones in operands, local variables, fields
and array members, the ones that references were bound to, and the ones of the input objects.
An operand that is a symbolic reference has a decided target, so that every operand can be
followed.  Sound states are kept by all operations, and those that need more than malformed code
to fail say so in their hypotheses.
-/
namespace SymbolicMachine

open SymbolicMachine.Action

variable {α β : Type}

/-- A value is in a field of an instance or a member of an array. -/
def HeapObject.Contains (v : Value) : HeapObject → Prop
  | .object i => ∃ name, i.fields.get? name = some v
  | .array a => ∃ entry ∈ a.entries, entry.value = v

theorem HeapObject.contains_of_getField {o : HeapObject} {name : String} {v : Value}
    (h : o.getField name = .ok v) : o.Contains v := by
  unfold HeapObject.getField at h
  split at h
  · unfold Instance.getField at h
    split at h
    · rename_i w hw
      cases h
      exact ⟨name, hw⟩
    · cases h
  · cases h

theorem HeapObject.getField_error {o : HeapObject} {name : String} {error : MemoryError}
    (h : o.getField name = .error error) : error.isEngineFault = false := by
  unfold HeapObject.getField at h
  split at h
  · unfold Instance.getField at h
    split at h <;> cases h
    rfl
  · cases h
    rfl

namespace State

def InUse (s : State) (address : Nat) : Prop := ∃ o, s.heap.get address = .ok o

/-- A value is no address without an object. -/
def Grounded (s : State) : Value → Prop
  | .reference (.concrete a) => s.InUse a
  | _ => True

/-- A value can be followed if it is a reference. -/
def Usable (s : State) : Value → Prop
  | .reference (.concrete a) => s.InUse a
  | .reference (.symbolic r) => s.isResolved r = true
  | _ => True

/-- Every address in the state leads to an object, and every operand can be followed. -/
structure Sound (s : State) : Prop where
  operands : ∀ f ∈ s.frames, ∀ v ∈ f.operands.operands, s.Usable v
  locals : ∀ f ∈ s.frames, ∀ v, some v ∈ f.locals.slots → s.Grounded v
  contents : ∀ {a o v}, s.heap.get a = .ok o → o.Contains v → s.Grounded v
  targets : ∀ {r c a}, s.resolution? r = some c → c.address? = some a → s.InUse a
  inputs : ∀ {a o}, s.initialHeap.get a = .ok o → s.InUse a

section Monotonicity

variable {s t : State}

theorem Grows.inUse (h : s.Grows t) {a : Nat} (ha : s.InUse a) : t.InUse a := by
  obtain ⟨o, ho⟩ := ha
  obtain ⟨p, hp, -⟩ := h.heap a o ho
  exact ⟨p, hp⟩

theorem Grows.grounded (h : s.Grows t) {v : Value} (hv : s.Grounded v) : t.Grounded v := by
  match v with
  | .reference (.concrete a) => exact h.inUse hv
  | .reference (.symbolic r) => trivial
  | .reference .null => trivial
  | .primitive _ => trivial

theorem Grows.usable (h : s.Grows t) {v : Value} (hv : s.Usable v) : t.Usable v := by
  match v with
  | .reference (.concrete a) => exact h.inUse hv
  | .reference (.symbolic r) => exact h.isResolved hv
  | .reference .null => trivial
  | .primitive _ => trivial

theorem Usable.grounded {v : Value} (hv : s.Usable v) : s.Grounded v := by
  match v with
  | .reference (.concrete a) => exact hv
  | .reference (.symbolic r) => trivial
  | .reference .null => trivial
  | .primitive _ => trivial

end Monotonicity

/-! ## Changed states -/

section Changes

variable {s : State}

theorem sound_root : root.Sound where
  operands := nofun
  locals := nofun
  contents := nofun
  targets := nofun
  inputs := nofun

theorem Sound.withSymbols (h : s.Sound) (n : Nat) : (s.withSymbols n).Sound :=
  ⟨h.operands, h.locals, h.contents, h.targets, h.inputs⟩

theorem Sound.withFrame (h : s.Sound) {f g : Frame} {rest : List Frame}
    (hf : s.frames = f :: rest) (hoperands : ∀ v ∈ g.operands.operands, s.Usable v)
    (hlocals : ∀ v, some v ∈ g.locals.slots → s.Grounded v) :
    (s.withFrames (g :: rest)).Sound where
  operands f' hf' v hv := by
    rcases List.mem_cons.1 hf' with rfl | hf'
    · exact hoperands v hv
    · exact h.operands f' (hf ▸ List.mem_cons_of_mem _ hf') v hv
  locals f' hf' v hv := by
    rcases List.mem_cons.1 hf' with rfl | hf'
    · exact hlocals v hv
    · exact h.locals f' (hf ▸ List.mem_cons_of_mem _ hf') v hv
  contents := h.contents
  targets := h.targets
  inputs := h.inputs

theorem resolution?_cases_of_push {p q : PathCondition} {c d : Clause} (h : p.push c = .ok q)
    {r : RefSymbol} (hr : q.resolution? r = some d) : p.resolution? r = some d ∨ d = c := by
  rw [PathCondition.resolution?_eq_some_iff] at hr ⊢
  rw [PathCondition.clauses_of_push h] at hr
  have hmem := List.mem_append.1 hr.1
  exact hmem.imp (⟨·, hr.2⟩) List.mem_singleton.1

theorem Sound.withPath (h : s.Sound) {p : PathCondition} {c : Clause}
    (hp : s.pathCondition.push c = .ok p) (hc : ∀ a, c.address? = some a → s.InUse a) :
    (s.withPath p).Sound := by
  have hgrows : s.Grows (s.withPath p) := grows_withPath hp
  exact
    { operands := fun f hf v hv => hgrows.usable (h.operands f hf v hv)
      locals := h.locals
      contents := h.contents
      targets := by
        intro r d a hd ha
        rcases resolution?_cases_of_push hp hd with hd | rfl
        · exact h.targets hd ha
        · exact hc a ha
      inputs := h.inputs }

theorem Sound.withHeap (h : s.Sound) {k : Heap} (hk : s.heap.Grows k)
    (hcontents : ∀ {a o v}, k.get a = .ok o → o.Contains v → s.Grounded v) :
    (s.withHeap k).Sound := by
  have hgrows : s.Grows (s.withHeap k) := grows_withHeap hk
  exact
    { operands := fun f hf v hv => hgrows.usable (h.operands f hf v hv)
      locals := fun f hf v hv => hgrows.grounded (h.locals f hf v hv)
      contents := fun ho hv => hgrows.grounded (hcontents ho hv)
      targets := fun hr ha => hgrows.inUse (h.targets hr ha)
      inputs := fun ho => hgrows.inUse (h.inputs ho) }

/-- The objects of a heap in which one was put at an address. -/
theorem get_insertAt_cases {h : Heap} {a b : Nat} {o p : HeapObject}
    (hb : (h.insertAt a o).get b = .ok p) : (b = a ∧ p = o) ∨ h.get b = .ok p := by
  by_cases heq : b = a
  · subst heq
    rw [h.get_insertAt_self] at hb
    cases hb
    exact .inl ⟨rfl, rfl⟩
  · rw [h.get_insertAt_of_ne heq] at hb
    exact .inr hb

theorem Sound.allocated (h : s.Sound) {object : HeapObject}
    (hobject : ∀ v, object.Contains v → s.Grounded v) :
    (s.withHeap (s.heap.allocate object).2).Sound := by
  refine h.withHeap (s.heap.grows_allocate object) fun ho hv => ?_
  rcases get_insertAt_cases ho with ⟨-, rfl⟩ | ho
  · exact hobject _ hv
  · exact h.contents ho hv

theorem Sound.withInput (h : s.Sound) {object : HeapObject}
    (hobject : ∀ v, object.Contains v → s.Grounded v) : (s.withInput object).Sound := by
  have hallocated := h.allocated hobject
  exact
    { operands := hallocated.operands
      locals := hallocated.locals
      contents := hallocated.contents
      targets := hallocated.targets
      inputs := by
        intro a o ho
        rcases get_insertAt_cases ho with ⟨rfl, -⟩ | ho
        · exact ⟨object, s.heap.get_allocate_self object⟩
        · exact hallocated.inputs ho }

theorem Sound.throwNew (h : s.Sound) (className : String) : (s.throwNew className).2.Sound := by
  have hempty : ∀ v, (HeapObject.object (.create className none [])).Contains v → s.Grounded v := by
    rintro v ⟨name, hname⟩
    cases hname
  have hallocated := h.allocated hempty
  exact ⟨hallocated.operands, hallocated.locals, hallocated.contents, hallocated.targets,
    hallocated.inputs⟩

end Changes

/-! ## New values -/

section Values

theorem Stands.grounded {descriptor : String} {origin : Origin} {id : Nat} {v : Value}
    (h : Stands descriptor origin id v) (s : State) : s.Grounded v := by
  cases h <;> trivial

theorem default_usable {descriptor : String} {v : Value} (h : Value.default descriptor = .ok v)
    (s : State) : s.Usable v := by
  unfold Value.default at h
  split at h
  · cases h
    trivial
  · split at h
    · cases h
      trivial
    · cases h

theorem defaultFields_grounded {fields : List FieldInfo} {values : List (String × Value)}
    (h : defaultFields fields = .ok values) (s : State) : ∀ b ∈ values, s.Grounded b.2 := by
  induction fields generalizing values with
  | nil =>
    cases h
    exact nofun
  | cons f rest ih =>
    obtain ⟨v, hv, h⟩ := bind_eq_ok.1 h
    obtain ⟨others, hothers, h⟩ := bind_eq_ok.1 h
    cases h
    intro b hb
    rcases List.mem_cons.1 hb with rfl | hb
    · exact (default_usable hv s).grounded
    · exact ih hothers b hb

theorem FieldsStand.grounded {r : RefSymbol} {fields : List FieldInfo} {id n : Nat}
    {values : List (String × Value)} (h : FieldsStand r fields id values n) (s : State) :
    ∀ b ∈ values, s.Grounded b.2 := by
  induction h with
  | nil => exact nofun
  | cons hv _ ih =>
    intro b hb
    rcases List.mem_cons.1 hb with rfl | hb
    · exact Stands.grounded hv s
    · exact ih b hb

/-- What a map made from bindings binds to a name is one of them. -/
theorem mem_of_get?_ofList {bindings : List (String × Value)} {name : String} {v : Value}
    (h : (OrderedMap.ofList bindings).get? name = some v) : (name, v) ∈ bindings := by
  rw [OrderedMap.get?_ofList] at h
  exact List.mem_reverse.1 (OrderedMap.mem_of_find h)

theorem grounded_of_contains_create {className : String} {origin : Option RefSymbol}
    {values : List (String × Value)} {s : State} (h : ∀ b ∈ values, s.Grounded b.2) (v : Value)
    (hv : (HeapObject.object (.create className origin values)).Contains v) : s.Grounded v := by
  obtain ⟨name, hname⟩ := hv
  exact h _ (mem_of_get?_ofList hname)

theorem grounded_of_contains_set {a : ArrayObject} {index : Term} {w : Value} {s : State}
    (ha : ∀ v, (HeapObject.array a).Contains v → s.Grounded v) (hw : s.Grounded w) (v : Value)
    (hv : (HeapObject.array (a.set index w)).Contains v) : s.Grounded v := by
  obtain ⟨entry, hentry, rfl⟩ := hv
  rcases List.mem_append.1 hentry with hentry | hentry
  · exact ha _ ⟨entry, (List.mem_filter.1 hentry).1, rfl⟩
  · cases List.mem_singleton.1 hentry
    exact hw

end Values

/-! ## Safe updates -/

/-- A sound state further along a path. -/
structure Follows (s t : State) : Prop where
  sound : t.Sound
  grows : s.Grows t

theorem Follows.trans {s t u : State} (h : s.Follows t) (h' : t.Follows u) : s.Follows u :=
  ⟨h'.sound, h.grows.trans h'.grows⟩

/-- An update leads to a sound state further along the path, and is no fault of the machine if it
fails. -/
def Safe (m : Update α) (s : State) (post : α → State → Prop) : Prop :=
  m.Meets s (fun a t => s.Follows t ∧ post a t) fun e t => s.Follows t ∧ e.isEngineFault = false

section Safety

variable {s : State} {post : α → State → Prop}

theorem Safe.bind {m : Update α} {k : α → Update β} {post' : β → State → Prop}
    (hm : Safe m s post) (hk : ∀ a t, s.Follows t → post a t → Safe (k a) t post') :
    Safe (m >>= k) s post' := by
  unfold Safe
  rw [meets_bind]
  refine hm.mono (fun a t ⟨hst, hpost⟩ => ?_) fun _ _ h => h
  exact (hk a t hst hpost).mono (fun _ _ ⟨htu, hpost'⟩ => ⟨hst.trans htu, hpost'⟩)
    fun _ _ ⟨htu, hfault⟩ => ⟨hst.trans htu, hfault⟩

theorem safe_pure (h : s.Sound) {a : α} (hpost : post a s) : Safe (pure a) s post :=
  ⟨⟨h, .refl s⟩, hpost⟩

theorem safe_value (h : s.Sound) {r : Except ValueError α} (hpost : ∀ a, r = .ok a → post a s) :
    Safe (ofExcept (r.mapError .value)) s post := by
  refine meets_ofExcept.2
    ⟨fun a ha => ⟨⟨h, .refl s⟩, hpost a (mapError_eq_ok.1 ha)⟩, fun e he => ?_⟩
  obtain ⟨cause, -, rfl⟩ := mapError_eq_error.1 he
  exact ⟨⟨h, .refl s⟩, rfl⟩

/-! ### Frames -/

theorem safe_popOperand (h : s.Sound) : Safe popOperand s fun v t => t.Usable v := by
  refine meets_popOperand (fun f rest v below hf hv => ?_) fun e he => ⟨⟨h, .refl s⟩, he⟩
  have hmem : f ∈ s.frames := hf ▸ List.mem_cons_self
  have hoperands := h.operands f hmem
  rw [hv] at hoperands
  refine ⟨⟨h.withFrame hf (fun w hw => hoperands w (List.mem_cons_of_mem _ hw))
    (h.locals f hmem), .of_eq rfl rfl rfl⟩, ?_⟩
  exact hoperands v List.mem_cons_self

theorem safe_popDownward (h : s.Sound) (count : Nat) :
    Safe (popDownward count) s fun vs t => ∀ v ∈ vs, t.Usable v := by
  induction count generalizing s with
  | zero => exact safe_pure h nofun
  | succ count ih =>
    refine (safe_popOperand h).bind fun _ t hst hv => ?_
    refine (ih hst.sound).bind fun vs u htu hvs => ?_
    refine safe_pure htu.sound fun w hw => ?_
    rcases List.mem_cons.1 hw with rfl | hw
    · exact htu.grows.usable hv
    · exact hvs w hw

theorem safe_popOperands (h : s.Sound) (count : Nat) :
    Safe (popOperands count) s fun vs t => ∀ v ∈ vs, t.Usable v := by
  refine (safe_popDownward h count).bind fun vs t hst hvs => ?_
  exact safe_pure hst.sound fun v hv => hvs v (List.mem_reverse.1 hv)

theorem safe_pushOperand (h : s.Sound) {v : Value} (hv : s.Usable v) :
    Safe (pushOperand v) s fun _ _ => True := by
  refine meets_pushOperand (fun f rest hf _ => ?_) fun e he => ⟨⟨h, .refl s⟩, he⟩
  have hmem : f ∈ s.frames := hf ▸ List.mem_cons_self
  refine ⟨⟨h.withFrame hf (fun w hw => ?_) (h.locals f hmem), .of_eq rfl rfl rfl⟩, trivial⟩
  rcases List.mem_cons.1 hw with rfl | hw
  · exact hv
  · exact h.operands f hmem w hw

theorem safe_incPc (h : s.Sound) (offset : Nat) : Safe (incPc offset) s fun _ _ => True := by
  refine meets_incPc (fun f rest hf _ => ?_) fun e he => ⟨⟨h, .refl s⟩, he⟩
  have hmem : f ∈ s.frames := hf ▸ List.mem_cons_self
  exact ⟨⟨h.withFrame hf (h.operands f hmem) (h.locals f hmem), .of_eq rfl rfl rfl⟩, trivial⟩

/-! ### Objects -/

theorem safe_createSymbol (h : s.Sound) (descriptor : String) (origin : Origin) :
    Safe (createSymbol descriptor origin) s fun v t =>
      t.Grounded v ∧ ∃ n, t = s.withSymbols n :=
  meets_createSymbol
    (fun _ hv => ⟨⟨h.withSymbols _, .of_eq rfl rfl rfl⟩, Stands.grounded hv _, _, rfl⟩)
    fun _ _ _ => ⟨⟨h, .refl s⟩, rfl⟩

theorem safe_allocate (h : s.Sound) {object : HeapObject}
    (hobject : ∀ v, object.Contains v → s.Grounded v) :
    Safe (allocate object) s fun address t => t.InUse address :=
  ⟨⟨h.allocated hobject, grows_withHeap (s.heap.grows_allocate object)⟩,
    object, s.heap.get_allocate_self object⟩

theorem safe_throwNew (h : s.Sound) (className : String) :
    Safe (Action.update fun s => (s.throwNew className).2) s fun _ _ => True :=
  ⟨⟨h.throwNew className, s.grows_throwNew className⟩, trivial⟩

theorem safe_createInstance (h : s.Sound) (className : String) (fields : List FieldInfo) :
    Safe (createInstance className fields) s fun address t => t.InUse address := by
  have hdefault : Safe (ofExcept ((defaultFields fields).mapError .value)) s
      fun values t => ∀ b ∈ values, t.Grounded b.2 :=
    safe_value h fun values hvalues => defaultFields_grounded hvalues s
  exact hdefault.bind fun values t hst hvalues =>
    safe_allocate hst.sound (grounded_of_contains_create hvalues)

theorem safe_createArray (h : s.Sound) (className : String) (length : Term) :
    Safe (createArray className length) s fun address t => t.InUse address :=
  safe_allocate h (by rintro v ⟨entry, hentry, -⟩; cases hentry)

/-! ### Assumptions -/

theorem safe_assume (h : s.Sound) (condition : Term) :
    Safe (assume condition) s fun _ t =>
      t.heap = s.heap ∧ t.initialHeap = s.initialHeap ∧ ∀ r, t.isResolved r = s.isResolved r := by
  refine meets_assume (fun _ => ?_) fun e he => ⟨⟨h, .refl s⟩, he⟩
  have hp : s.pathCondition.push (.assume condition) =
      .ok (s.pathCondition.append [.assume condition] (Clause.decided?_assume condition)) := rfl
  exact ⟨⟨h.withPath hp nofun, grows_withPath hp⟩, rfl, rfl, fun _ => rfl⟩

theorem isResolved_withPath {p : PathCondition} {c : Clause} {r : RefSymbol}
    (hp : s.pathCondition.push c = .ok p) (hr : c.reference? = some r) :
    (s.withPath p).isResolved r = true := by
  have hresolution : p.resolution? r = some c := PathCondition.resolution?_of_push_self hp hr
  exact PathCondition.isResolved_iff.2 ⟨c, hresolution⟩

theorem safe_assumeNull (h : s.Sound) {r : RefSymbol} (hfree : s.isResolved r = false) :
    Safe (assumeNull r) s fun _ t => t.isResolved r = true := by
  refine meets_assumeNull (fun p _ hp => ?_) fun hr => absurd (hfree.symm.trans hr) nofun
  exact ⟨⟨h.withPath hp nofun, grows_withPath hp⟩, isResolved_withPath hp rfl⟩

theorem safe_assumeAliases (h : s.Sound) {r : RefSymbol} {address : Nat} {o : HeapObject}
    (hfree : s.isResolved r = false) (ho : s.initialHeap.get address = .ok o) :
    Safe (assumeAliases r address) s fun _ t => t.isResolved r = true := by
  refine meets_assumeAliases (fun p _ _ _ hp => ?_) (fun hr => absurd (hfree.symm.trans hr) nofun)
    fun e he => absurd (ho.symm.trans he) nofun
  refine ⟨⟨h.withPath hp fun a ha => ?_, grows_withPath hp⟩, isResolved_withPath hp rfl⟩
  cases ha
  exact h.inputs ho

theorem safe_assumeExpands (h : s.Sound) {r : RefSymbol} (className : String)
    (fields : List FieldInfo) (hfree : s.isResolved r = false) :
    Safe (assumeExpands r className fields) s fun address t => t.isResolved r = true ∧
      (Descriptor.isArray className = true → ∃ a, t.getArray address = .ok a) := by
  refine meets_assumeExpands (fun object n p _ hobject hp => ?_)
    (fun hr => absurd (hfree.symm.trans hr) nofun)
    fun _ _ _ _ n _ _ _ => ⟨⟨h.withSymbols n, .of_eq rfl rfl rfl⟩, rfl⟩
  have hsymbols : s.Grows (s.withSymbols n) := .of_eq rfl rfl rfl
  have hcontents : ∀ v, object.Contains v → (s.withSymbols n).Grounded v := by
    cases hobject with
    | array _ =>
      rintro v ⟨entry, hentry, -⟩
      cases hentry
    | object _ hvalues => exact grounded_of_contains_create (FieldsStand.grounded hvalues _)
  have hinput := (h.withSymbols n).withInput hcontents
  have hgrowth := hsymbols.trans (grows_withInput (s.withSymbols n) object)
  have hat : ((s.withSymbols n).withInput object).heap.get s.heap.next = .ok object :=
    s.heap.get_allocate_self object
  refine ⟨⟨hinput.withPath hp fun a ha => ?_, hgrowth.trans (grows_withPath hp)⟩,
    isResolved_withPath (s := (s.withSymbols n).withInput object) hp rfl, fun harray => ?_⟩
  · cases ha
    exact ⟨object, hat⟩
  · cases hobject with
    | array _ => exact ⟨_, Heap.getArray_eq_ok.2 hat⟩
    | object hinstance _ =>
      rw [harray] at hinstance
      cases hinstance

end Safety

/-! ## Stores -/

section Stores

variable {s : State}

theorem mem_slots_of_write {slots : List (Option Value)} {slot : Nat} {v w : Value}
    (h : some w ∈ Locals.write slots slot v) : w = v ∨ some w ∈ slots := by
  have hset : ∀ {l : List (Option Value)} {i : Nat} {x : Option Value},
      some w ∈ l.set i x → x = some w ∨ some w ∈ l := fun hmem =>
    (List.mem_or_eq_of_mem_set hmem).symm.imp_left Eq.symm
  have hclear : ∀ {l : List (Option Value)} {i : Nat}, some w ∈ l.set i none → some w ∈ l :=
    fun hmem => (hset hmem).resolve_left nofun
  have hbelow : some w ∈ Locals.dropBelow slots slot → some w ∈ slots := by
    intro hmem
    cases slot with
    | zero => exact hmem
    | succ below =>
      simp only [Locals.dropBelow] at hmem
      split at hmem
      · exact hclear hmem
      · exact hmem
  unfold Locals.write at h
  rcases hset h with heq | hmem
  · cases heq
    exact .inl rfl
  · split at hmem
    · exact .inr (hbelow hmem)
    · exact .inr (hbelow (hclear hmem))

theorem mem_slots_of_set {l m : Locals} {slot pc : Nat} {v w : Value}
    (h : l.set slot pc v = .ok m) (hw : some w ∈ m.slots) : w = v ∨ some w ∈ l.slots := by
  unfold Locals.set at h
  split at h
  · cases h
  · split at h
    · cases h
      exact mem_slots_of_write hw
    · cases h

theorem follows_setLocal (h : s.Sound) {slot : Nat} {v : Value} (hv : s.Grounded v) :
    (setLocal slot v).Meets s (fun _ t => s.Follows t) fun _ t => s.Follows t := by
  have hsame : s.Follows s := ⟨h, .refl s⟩
  refine meets_onFrame (fun f rest _ g hf hset => ?_) (fun _ => hsame) fun _ _ _ _ _ => hsame
  have hmem : f ∈ s.frames := hf ▸ List.mem_cons_self
  cases hg : f.setLocal slot v with
  | error e =>
    rw [hg] at hset
    cases hset
  | ok g' =>
    rw [hg] at hset
    cases hset
    obtain ⟨m, hm, heq⟩ := bind_eq_ok.1 hg
    cases heq
    refine ⟨h.withFrame hf (h.operands f hmem) fun w hw => ?_, .of_eq rfl rfl rfl⟩
    rcases mem_slots_of_set hm hw with rfl | hw
    · exact hv
    · exact h.locals f hmem w hw

theorem follows_onHeap (h : s.Sound) {change : Heap → Except MemoryError Heap}
    (hchange : ∀ k, change s.heap = .ok k → s.heap.Grows k ∧
      ∀ {a o v}, k.get a = .ok o → o.Contains v → s.Grounded v) :
    (onHeap change).Meets s (fun _ t => s.Follows t) fun _ t => s.Follows t := by
  unfold onHeap
  simp only [meets_bind, meets_read, meets_ofExcept, meets_write]
  refine ⟨fun k hk => ?_, fun _ _ => ⟨h, .refl s⟩⟩
  obtain ⟨hgrows, hcontents⟩ := hchange k hk
  exact ⟨h.withHeap hgrows hcontents, grows_withHeap hgrows⟩

theorem follows_arraySet (h : s.Sound) {address : Nat} {index : Term} {v : Value}
    (hv : s.Grounded v) :
    (arraySet address index v).Meets s (fun _ t => s.Follows t) fun _ t => s.Follows t := by
  refine follows_onHeap h fun k hk => ⟨Heap.grows_arraySet hk, fun ho hw => ?_⟩
  obtain ⟨a, ha, heq⟩ := bind_eq_ok.1 hk
  cases heq
  rcases get_insertAt_cases ho with ⟨-, rfl⟩ | ho
  · exact grounded_of_contains_set (fun _ => h.contents (Heap.getArray_eq_ok.1 ha)) hv _ hw
  · exact h.contents ho hw

theorem safe_arraySet (h : s.Sound) {address : Nat} {a : ArrayObject} {index : Term} {v : Value}
    (ha : s.getArray address = .ok a) (hv : s.Grounded v) :
    Safe (arraySet address index v) s fun _ _ => True := by
  obtain ⟨hok, -⟩ := meets_iff.1 (follows_arraySet h hv)
  refine meets_iff.2 ⟨fun _ t hrun => ⟨hok _ t hrun, trivial⟩, fun e t hrun => ?_⟩
  have hset : s.heap.arraySet address index v =
      .ok (s.heap.insertAt address (.array (a.set index v))) := bind_eq_ok.2 ⟨a, ha, rfl⟩
  simp [arraySet, onHeap, run_bind, hset] at hrun

theorem follows_setField (h : s.Sound) {address : Nat} {name : String} {v : Value}
    (hv : s.Grounded v) :
    (setField address name v).Meets s (fun _ t => s.Follows t) fun _ t => s.Follows t := by
  refine follows_onHeap h fun k hk => ⟨Heap.grows_setField hk, fun ho hw => ?_⟩
  obtain ⟨i, hi, rfl⟩ := Heap.setField_eq_ok hk
  rcases get_insertAt_cases ho with ⟨-, rfl⟩ | ho
  · obtain ⟨field, hfield⟩ := hw
    by_cases heq : field = name
    · rw [heq, OrderedMap.get?_insert_self] at hfield
      cases hfield
      exact hv
    · rw [OrderedMap.get?_insert_of_ne _ heq] at hfield
      exact h.contents hi ⟨field, hfield⟩
  · exact h.contents ho hw

end Stores

end State

end SymbolicMachine
