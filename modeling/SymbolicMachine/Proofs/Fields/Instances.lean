import SymbolicMachine.Proofs.Inputs.Loads
/-!
# The fields of instances

The fields of a class are those that it inherits, and behind them its own.  For every one of them
an instance is given a value, but it keeps its values by name.  A field that is the last one of its
name has the value that was made for it.  Where classes above declare fields of the same name, the
values made for those are lost.
-/
namespace SymbolicMachine

/-! ## Fields of one name -/

/-- The field at a position is the last one of its name. -/
structure LastAt (fields : List FieldInfo) (i : Nat) (f : FieldInfo) : Prop where
  found : fields[i]? = some f
  last : ∀ (j : Nat) (g : FieldInfo), i < j → fields[j]? = some g → g.name ≠ f.name

variable {fields : List FieldInfo} {values : List (String × Value)} {f g : FieldInfo} {i : Nat}

theorem LastAt.tail (h : LastAt (f :: fields) (i + 1) g) : LastAt fields i g :=
  ⟨h.found, fun j k hj hk => h.last (j + 1) k (Nat.succ_lt_succ hj) hk⟩

theorem LastAt.cons (h : LastAt fields i g) (f : FieldInfo) : LastAt (f :: fields) (i + 1) g := by
  refine ⟨h.found, fun j k hj hk => ?_⟩
  obtain ⟨j, rfl⟩ := Nat.exists_eq_succ_of_ne_zero (Nat.ne_of_gt (Nat.zero_lt_of_lt hj))
  exact h.last j k (Nat.lt_of_succ_lt_succ hj) hk

theorem lastAt_concat (fields : List FieldInfo) (f : FieldInfo) :
    LastAt (fields ++ [f]) fields.length f := by
  refine ⟨List.getElem?_concat_length, fun j g hj hg => ?_⟩
  obtain ⟨hlt, -⟩ := List.getElem?_eq_some_iff.1 hg
  rw [List.length_append, List.length_singleton] at hlt
  exact absurd hj (Nat.not_lt.2 (Nat.le_of_lt_succ hlt))

/-- Every name among the fields has a last field. -/
theorem exists_lastAt {name : String} (h : ∃ f ∈ fields, f.name = name) :
    ∃ i g, LastAt fields i g ∧ g.name = name := by
  induction fields with
  | nil =>
    obtain ⟨f, hf, -⟩ := h
    cases hf
  | cons a rest ih =>
    by_cases hlater : ∃ f ∈ rest, f.name = name
    · obtain ⟨i, g, hlast, hname⟩ := ih hlater
      exact ⟨i + 1, g, hlast.cons a, hname⟩
    · obtain ⟨f, hf, hname⟩ := h
      rcases List.mem_cons.1 hf with rfl | hf
      · refine ⟨0, f, ⟨rfl, fun j g hj hg hsame => hlater ⟨g, ?_, hsame.trans hname⟩⟩, hname⟩
        obtain ⟨j, rfl⟩ := Nat.exists_eq_succ_of_ne_zero (Nat.ne_of_gt hj)
        exact List.mem_of_getElem? hg
      · exact absurd ⟨f, hf, hname⟩ hlater

/-- Values for fields in order, under the names of the fields. -/
inductive Fills (Fits : Nat → FieldInfo → Value → Prop) :
    Nat → List FieldInfo → List (String × Value) → Prop
  | nil (k : Nat) : Fills Fits k [] []
  | cons {k : Nat} {f : FieldInfo} {fields : List FieldInfo} {v : Value}
      {values : List (String × Value)} (hv : Fits k f v)
      (hvalues : Fills Fits (k + 1) fields values) :
      Fills Fits k (f :: fields) ((f.name, v) :: values)

section Fills

variable {Fits : Nat → FieldInfo → Value → Prop} {k : Nat}

theorem Fills.find_eq_none (h : Fills Fits k fields values) {name : String}
    (hname : ∀ f ∈ fields, f.name ≠ name) : OrderedMap.find name values.reverse = none := by
  induction h with
  | nil _ => rfl
  | cons _ _ ih =>
    obtain ⟨hhead, htail⟩ := List.forall_mem_cons.1 hname
    rw [List.reverse_cons, OrderedMap.find_append, ih htail, OrderedMap.find,
      if_neg (Ne.symm hhead)]
    rfl

/-- The value of the last field of a name is the one that is kept. -/
theorem Fills.get?_ofList (h : Fills Fits k fields values) (hlast : LastAt fields i f) :
    ∃ v, (OrderedMap.ofList values).get? f.name = some v ∧ Fits (k + i) f v := by
  rw [OrderedMap.get?_ofList]
  induction h generalizing i with
  | nil _ => cases hlast.found
  | @cons k g rest v values hv hvalues ih =>
    rw [List.reverse_cons, OrderedMap.find_append]
    cases i with
    | zero =>
      cases hlast.found
      have hothers : ∀ g ∈ rest, g.name ≠ f.name := by
        intro g hg
        obtain ⟨j, hj⟩ := List.mem_iff_getElem?.1 hg
        exact hlast.last (j + 1) g (Nat.succ_pos j) hj
      rw [hvalues.find_eq_none hothers]
      exact ⟨v, if_pos rfl, hv⟩
    | succ i =>
      obtain ⟨w, hw, hfits⟩ := ih hlast.tail
      rw [hw]
      exact ⟨w, rfl, by rwa [Nat.add_right_comm] at hfits⟩

end Fills

/-! ## Symbols and default values for fields -/

theorem Stands.conformsTo {d : String} {origin : Origin} {id : Nat} {v : Value}
    (h : Stands d origin id v) : v.conformsTo d = true := by
  cases h with
  | primitive hprim => simp [Value.conformsTo, hprim, Term.type]
  | reference _ hstatic =>
    unfold Descriptor.staticType at hstatic
    split at hstatic
    · rename_i harray
      exact Bool.or_eq_true_iff.2 (.inl harray)
    · split at hstatic
      · rename_i name hname
        exact Bool.or_eq_true_iff.2 (.inr (by rw [hname]; rfl))
      · cases hstatic

theorem Value.conformsTo_default {d : String} {v : Value} (h : Value.default d = .ok v) :
    v.conformsTo d = true := by
  unfold Value.default at h
  split at h
  · rename_i t ht
    cases h
    simp [Value.conformsTo, ht, Term.type]
  · split at h
    · rename_i hreference
      cases h
      exact hreference
    · cases h

theorem Value.exists_default {d : String} (h : Descriptor.Denotes d) :
    ∃ v, Value.default d = .ok v := by
  unfold Value.default
  rcases h with h | h
  · obtain ⟨t, ht⟩ := Option.isSome_iff_exists.1 h
    rw [ht]
    exact ⟨_, rfl⟩
  · split
    · exact ⟨_, rfl⟩
    · rw [if_pos h]
      exact ⟨_, rfl⟩

theorem FieldsStand.fills {r : RefSymbol} {id n : Nat} (h : FieldsStand r fields id values n) :
    Fills (fun k f v => Stands f.descriptor (.field r f.name) k v) id fields values := by
  induction h with
  | nil => exact .nil _
  | cons hv _ ih => exact .cons hv ih

theorem FieldsStand.eq_add_length {r : RefSymbol} {id n : Nat}
    (h : FieldsStand r fields id values n) : n = id + fields.length := by
  induction h with
  | nil => rfl
  | cons _ _ ih => rw [ih, List.length_cons, Nat.add_assoc, Nat.add_comm 1]

/-- Fields whose descriptors denote types have default values. -/
theorem exists_defaultFields (h : ∀ f ∈ fields, Descriptor.Denotes f.descriptor) :
    ∃ values, State.defaultFields fields = .ok values ∧
      ∀ k, Fills (fun _ f v => Value.default f.descriptor = .ok v) k fields values := by
  induction fields with
  | nil => exact ⟨[], rfl, fun k => .nil k⟩
  | cons f rest ih =>
    obtain ⟨hhead, htail⟩ := List.forall_mem_cons.1 h
    obtain ⟨v, hv⟩ := Value.exists_default hhead
    obtain ⟨values, hvalues, hfills⟩ := ih htail
    refine ⟨(f.name, v) :: values, ?_, fun k => .cons hv (hfills (k + 1))⟩
    rw [State.defaultFields, hv]
    change (State.defaultFields rest >>= fun others => Except.ok ((f.name, v) :: others)) = _
    rw [hvalues]
    rfl

/-! ## New objects -/

namespace State

variable {s : State} {className : String}

/-- A new input object has a symbol for the last field of each name, made for that field. -/
theorem assumeExpands_holds {r : RefSymbol} (hfree : s.isResolved r = false)
    (hobject : Descriptor.isArray className = false)
    (hfields : ∀ f ∈ fields, Descriptor.Denotes f.descriptor) :
    ∃ address after o, (assumeExpands r className fields).run s = (.ok address, after) ∧
      after.getObject address = .ok o ∧
      ∀ i f, LastAt fields i f → ∃ v, o.getField f.name = .ok v ∧
        v.conformsTo f.descriptor = true ∧
        Stands f.descriptor (.field r f.name) (s.nextSymbol + i) v ∧
        s.nextSymbol + i < after.nextSymbol := by
  have hmeets : (assumeExpands r className fields).Meets s
      (fun address after => ∃ o, after.getObject address = .ok o ∧
        ∀ i f, LastAt fields i f → ∃ v, o.getField f.name = .ok v ∧
          v.conformsTo f.descriptor = true ∧
          Stands f.descriptor (.field r f.name) (s.nextSymbol + i) v ∧
          s.nextSymbol + i < after.nextSymbol)
      fun _ _ => False := by
    refine meets_assumeExpands (fun object n p _ hexpansion _ => ?_)
      (fun htaken => absurd (htaken.symm.trans hfree) nofun) fun _ f hf e n _ hprim herror => ?_
    · refine ⟨object, s.heap.get_allocate_self object, fun i f hlast => ?_⟩
      cases hexpansion with
      | array harray => exact absurd (harray.symm.trans hobject) nofun
      | object _ hvalues =>
        obtain ⟨v, hv, hstands⟩ := hvalues.fills.get?_ofList hlast
        refine ⟨v, ?_, hstands.conformsTo, hstands, ?_⟩
        · rw [HeapObject.getField, Instance.getField, Instance.create, hv]
        · change s.nextSymbol + i < n
          rw [hvalues.eq_add_length]
          exact Nat.add_lt_add_left (List.getElem?_eq_some_iff.1 hlast.found).1 _
    · obtain ⟨c, hc⟩ := Descriptor.exists_staticType (hfields f hf) hprim
      exact nomatch herror.symm.trans hc
  rcases hrun : (assumeExpands r className fields).run s with ⟨error | address, after⟩
  · exact (hmeets.of_error hrun).elim
  · obtain ⟨o, ho, hheld⟩ := hmeets.of_ok hrun
    exact ⟨address, after, o, rfl, ho, hheld⟩

/-- A new instance has the default value of the last field of each name. -/
theorem createInstance_holds (s : State) (className : String)
    (hfields : ∀ f ∈ fields, Descriptor.Denotes f.descriptor) :
    ∃ address after o, (createInstance className fields).run s = (.ok address, after) ∧
      after.getObject address = .ok o ∧
      ∀ i f, LastAt fields i f → ∃ v, o.getField f.name = .ok v ∧
        v.conformsTo f.descriptor = true ∧ Value.default f.descriptor = .ok v := by
  obtain ⟨values, hvalues, hfills⟩ := exists_defaultFields hfields
  let object : HeapObject := .object (.create className none values)
  refine ⟨s.heap.next, { s with heap := (s.heap.allocate object).2 }, object, ?_, ?_,
    fun i f hlast => ?_⟩
  · unfold createInstance
    rw [hvalues]
    rfl
  · exact s.heap.get_allocate_self _
  · obtain ⟨v, hv, hdefault⟩ := (hfills 0).get?_ofList hlast
    refine ⟨v, ?_, Value.conformsTo_default hdefault, hdefault⟩
    rw [HeapObject.getField, Instance.getField, Instance.create, hv]

end State

/-! ## Classes and the classes above them -/

namespace ClassTable

variable {t : ClassTable} {name : String} {c : ClassInfo}

/-- Some class declares the field. -/
def Declares (t : ClassTable) (f : FieldInfo) : Prop :=
  ∃ name c, t.classes.get? name = some c ∧ f ∈ c.fields

/-- All fields have descriptors that denote types. -/
def WellFormed (t : ClassTable) : Prop := ∀ f, t.Declares f → Descriptor.Denotes f.descriptor

/-- The class and all classes above it are known. -/
def Rooted (t : ClassTable) (name : String) : Prop :=
  ∀ above, Relation.ReflTransGen t.Extends name above → ∃ c, t.classes.get? above = some c

/-- The fields that a class inherits: those of its superclass, if it has one. -/
def Inherits (t : ClassTable) (c : ClassInfo) (inherited : List FieldInfo) : Prop :=
  match c.superclass with
  | none => inherited = []
  | some superclass => t.instanceFields superclass = .ok inherited

theorem Rooted.superclass {superclass : String} (h : t.Rooted name)
    (hextends : t.Extends name superclass) : t.Rooted superclass :=
  fun _ habove => h _ (.head hextends habove)

/-- The classes met before a class are not above it. -/
def Apart (t : ClassTable) (met : List String) (name : String) : Prop :=
  ∀ above ∈ met, ¬Relation.ReflTransGen t.Extends name above

theorem Apart.not_contains {met : List String} (h : t.Apart met name) :
    met.contains name = false := by
  rw [Bool.eq_false_iff]
  intro hmet
  exact h name (List.contains_iff_mem.1 hmet) .refl

theorem Apart.superclass {met : List String} {superclass : String} (hacyclic : t.Acyclic)
    (h : t.Apart met name) (hextends : t.Extends name superclass) :
    t.Apart (name :: met) superclass := by
  intro above habove hreach
  rcases List.mem_cons.1 habove with rfl | habove
  · exact hacyclic above (.head' hextends hreach)
  · exact h above habove (.head hextends hreach)

theorem fieldsFrom_of_root {met : List String} (hmet : met.contains name = false)
    (hc : t.classes.get? name = some c) (hroot : c.superclass = none) :
    t.fieldsFrom met name = .ok c.instanceFields := by
  rw [fieldsFrom]
  split
  · rename_i h
    rw [hmet] at h
    cases h
  · split
    · rename_i h
      rw [hc] at h
      cases h
    · rename_i h
      cases hc.symm.trans h
      rw [hroot]

theorem declares_instanceFields (hc : t.classes.get? name = some c) :
    ∀ f ∈ c.instanceFields, t.Declares f :=
  fun _ hf => ⟨name, c, hc, (List.mem_filter.1 hf).1⟩

/-- The fields of a class are declared by classes of the table.  They do not depend on the classes
met before, as long as none of these is above the class. -/
theorem exists_fieldsFrom (hacyclic : t.Acyclic) {met : List String} (hknown : t.Rooted name)
    (hapart : t.Apart met name) :
    ∃ fields, (∀ f ∈ fields, t.Declares f) ∧
      ∀ met', t.Apart met' name → t.fieldsFrom met' name = .ok fields := by
  -- Each step up meets a class for the first time.
  induction hcount : (t.unmet met).length using Nat.strongRecOn generalizing met name with
  | ind count ih =>
    obtain ⟨c, hc⟩ := hknown name .refl
    cases hsuperclass : c.superclass with
    | none =>
      exact ⟨c.instanceFields, declares_instanceFields hc,
        fun met' h => fieldsFrom_of_root h.not_contains hc hsuperclass⟩
    | some superclass =>
      have hextends : t.Extends name superclass := ⟨c, hc, hsuperclass⟩
      have hfewer := unmet_cons_lt hc hapart.not_contains
      obtain ⟨inherited, hdeclared, hinherited⟩ := ih _ (hcount ▸ hfewer)
        (hknown.superclass hextends) (hapart.superclass hacyclic hextends) rfl
      refine ⟨inherited ++ c.instanceFields,
        List.forall_mem_append.2 ⟨hdeclared, declares_instanceFields hc⟩, fun met' h => ?_⟩
      exact fieldsFrom_of_superclass h.not_contains hc hsuperclass
        (hinherited _ (h.superclass hacyclic hextends))

/-- The fields of a class are the fields of its superclass, and behind them its own. -/
theorem exists_instanceFields (hacyclic : t.Acyclic) (hknown : t.Rooted name) :
    ∃ c inherited, t.classes.get? name = some c ∧ t.Inherits c inherited ∧
      t.instanceFields name = .ok (inherited ++ c.instanceFields) ∧
      ∀ f ∈ inherited ++ c.instanceFields, t.Declares f := by
  obtain ⟨c, hc⟩ := hknown name .refl
  cases hsuperclass : c.superclass with
  | none =>
    exact ⟨c, [], hc, by rw [Inherits, hsuperclass], fieldsFrom_of_root rfl hc hsuperclass,
      declares_instanceFields hc⟩
  | some superclass =>
    have hextends : t.Extends name superclass := ⟨c, hc, hsuperclass⟩
    have hapart : t.Apart [] superclass := nofun
    obtain ⟨inherited, hdeclared, hinherited⟩ :=
      exists_fieldsFrom hacyclic (hknown.superclass hextends) hapart
    refine ⟨c, inherited, hc, ?_, ?_, ?_⟩
    · rw [Inherits, hsuperclass]
      exact hinherited [] hapart
    · have hname : t.Apart [] name := nofun
      refine fieldsFrom_of_superclass rfl hc hsuperclass (hinherited _ ?_)
      exact hname.superclass hacyclic hextends
    · exact List.forall_mem_append.2 ⟨hdeclared, declares_instanceFields hc⟩

/-- The fields of a class are those of its superclass and its own behind them, and objects hold a
value for each of them that is the last one of its name, of the type that it declares.  In a new
input it is a fresh symbol made for the field, and in a new instance the default value. -/
theorem objects_hold_fields (hacyclic : t.Acyclic) (hformed : t.WellFormed)
    (hknown : t.Rooted name) :
    ∃ c inherited fields, t.classes.get? name = some c ∧ t.Inherits c inherited ∧
      fields = inherited ++ c.instanceFields ∧ t.instanceFields name = .ok fields ∧
      (∀ f ∈ fields, ∃ i g, LastAt fields i g ∧ g.name = f.name) ∧
      (∀ (s : State) (r : RefSymbol), s.isResolved r = false → Descriptor.isArray name = false →
        ∃ address after o, (State.assumeExpands r name fields).run s = (.ok address, after) ∧
          after.getObject address = .ok o ∧
          ∀ i f, LastAt fields i f → ∃ v, o.getField f.name = .ok v ∧
            v.conformsTo f.descriptor = true ∧
            Stands f.descriptor (.field r f.name) (s.nextSymbol + i) v ∧
            s.nextSymbol + i < after.nextSymbol) ∧
      ∀ s : State,
        ∃ address after o, (State.createInstance name fields).run s = (.ok address, after) ∧
          after.getObject address = .ok o ∧
          ∀ i f, LastAt fields i f → ∃ v, o.getField f.name = .ok v ∧
            v.conformsTo f.descriptor = true ∧ Value.default f.descriptor = .ok v := by
  obtain ⟨c, inherited, hc, hinherits, hfields, hdeclared⟩ :=
    exists_instanceFields hacyclic hknown
  have hdenotes : ∀ f ∈ inherited ++ c.instanceFields, Descriptor.Denotes f.descriptor :=
    fun f hf => hformed f (hdeclared f hf)
  refine ⟨c, inherited, _, hc, hinherits, rfl, hfields, fun f hf => exists_lastAt ⟨f, hf, rfl⟩,
    fun s r hfree hobject => ?_, fun s => ?_⟩
  · exact State.assumeExpands_holds hfree hobject hdenotes
  · exact State.createInstance_holds s name hdenotes

/-- A class with a field that a class below it declares again, with another type. -/
def redeclaring : ClassTable :=
  (ClassTable.initial.insert ((ClassInfo.named "Base").withField "x" "I")).insert
    (((ClassInfo.named "Derived").extending "Base").withField "x" "J")

theorem redeclaring_get? {name : String} {c : ClassInfo}
    (h : redeclaring.classes.get? name = some c) :
    (name = "Base" ∧ c = (ClassInfo.named "Base").withField "x" "I") ∨
      (name = "Derived" ∧ c = ((ClassInfo.named "Derived").extending "Base").withField "x" "J") ∨
      (name = rootClass ∧ c = .named rootClass) := by
  have hentries : redeclaring.classes.entries =
      [("Base", (ClassInfo.named "Base").withField "x" "I"),
        ("Derived", ((ClassInfo.named "Derived").extending "Base").withField "x" "J"),
        (rootClass, .named rootClass)] := rfl
  have hmem := OrderedMap.mem_entries_iff.2 h
  simpa [hentries] using hmem

theorem redeclaring_extends {name superclass : String}
    (h : redeclaring.Extends name superclass) :
    (name = "Base" ∧ superclass = rootClass) ∨ (name = "Derived" ∧ superclass = "Base") := by
  obtain ⟨c, hc, hsuperclass⟩ := h
  rcases redeclaring_get? hc with ⟨rfl, rfl⟩ | ⟨rfl, rfl⟩ | ⟨rfl, rfl⟩
  · exact .inl ⟨rfl, (Option.some.inj hsuperclass).symm⟩
  · exact .inr ⟨rfl, (Option.some.inj hsuperclass).symm⟩
  · cases hsuperclass

theorem redeclaring_acyclic : redeclaring.Acyclic := by
  let rank (name : String) : Nat := if name = "Derived" then 2 else if name = "Base" then 1 else 0
  refine acyclic_of_rank rank fun name superclass h => ?_
  rcases redeclaring_extends h with ⟨rfl, rfl⟩ | ⟨rfl, rfl⟩ <;> decide

theorem redeclaring_wellFormed : redeclaring.WellFormed := by
  rintro f ⟨name, c, hc, hf⟩
  rcases redeclaring_get? hc with ⟨-, rfl⟩ | ⟨-, rfl⟩ | ⟨-, rfl⟩
  · cases List.mem_singleton.1 hf
    exact .inl rfl
  · cases List.mem_singleton.1 hf
    exact .inl rfl
  · cases hf

theorem redeclaring_rooted : redeclaring.Rooted "Derived" := by
  intro above h
  rcases h.cases_tail with rfl | ⟨below, -, hextends⟩
  · exact ⟨_, rfl⟩
  · rcases redeclaring_extends hextends with ⟨-, rfl⟩ | ⟨-, rfl⟩ <;> exact ⟨_, rfl⟩

/-- Objects of the class below hold a value for the field, of the type that it declares. -/
theorem objects_hold_redeclared_fields :
    redeclaring.Acyclic ∧ redeclaring.WellFormed ∧ redeclaring.Rooted "Derived" ∧
      ∃ fields, redeclaring.instanceFields "Derived" = .ok fields ∧
        ∃ address after o,
          (State.createInstance "Derived" fields).run .root = (.ok address, after) ∧
            after.getObject address = .ok o ∧
            ∀ i f, LastAt fields i f → ∃ v, o.getField f.name = .ok v ∧
              v.conformsTo f.descriptor = true := by
  refine ⟨redeclaring_acyclic, redeclaring_wellFormed, redeclaring_rooted, ?_⟩
  obtain ⟨-, -, fields, -, -, -, hfields, -, -, hcreated⟩ :=
    objects_hold_fields redeclaring_acyclic redeclaring_wellFormed redeclaring_rooted
  obtain ⟨address, after, o, hrun, ho, hheld⟩ := hcreated .root
  refine ⟨fields, hfields, address, after, o, hrun, ho, fun i f hlast => ?_⟩
  obtain ⟨v, hv, hconforms, -⟩ := hheld i f hlast
  exact ⟨v, hv, hconforms⟩

theorem redeclaring_instanceFields :
    redeclaring.instanceFields "Derived" = .ok [⟨"x", "I", false⟩, ⟨"x", "J", false⟩] := by
  have hroot : redeclaring.fieldsFrom ["Base", "Derived"] rootClass = .ok [] :=
    fieldsFrom_of_root (c := .named rootClass) rfl rfl rfl
  have hbase : redeclaring.fieldsFrom ["Derived"] "Base" = .ok [⟨"x", "I", false⟩] :=
    fieldsFrom_of_superclass (c := (ClassInfo.named "Base").withField "x" "I") rfl rfl rfl hroot
  exact fieldsFrom_of_superclass
    (c := ((ClassInfo.named "Derived").extending "Base").withField "x" "J") rfl rfl rfl hbase

theorem conformsTo_int_of_long {u : Term} (h : u.type = .long) :
    (Value.primitive u).conformsTo "I" = false := by
  have hint : Descriptor.primType? "I" = some .int := by decide
  rw [Value.conformsTo, hint, h]
  decide

/-- A field that a class below declares again, with another type, loses its value: what is read
under its name is not of its type. -/
theorem redeclared_field_has_other_value :
    let f : FieldInfo := ⟨"x", "I", false⟩
    let r : RefSymbol := ⟨0, "Derived", .root "r"⟩
    redeclaring.Acyclic ∧ redeclaring.WellFormed ∧ redeclaring.Rooted "Derived" ∧
      ∃ fields, redeclaring.instanceFields "Derived" = .ok fields ∧ f ∈ fields ∧
        (∃ address after o v,
          (State.assumeExpands r "Derived" fields).run .root = (.ok address, after) ∧
            after.getObject address = .ok o ∧ o.getField f.name = .ok v ∧
            v.conformsTo f.descriptor = false) ∧
        ∃ address after o v,
          (State.createInstance "Derived" fields).run .root = (.ok address, after) ∧
            after.getObject address = .ok o ∧ o.getField f.name = .ok v ∧
            v.conformsTo f.descriptor = false := by
  intro f r
  let g : FieldInfo := ⟨"x", "J", false⟩
  have hlong : Descriptor.primType? g.descriptor = some .long := by decide
  have hlast : LastAt [f, g] 1 g := lastAt_concat [f] g
  have hdenotes : ∀ h ∈ [f, g], Descriptor.Denotes h.descriptor :=
    List.forall_mem_cons.2 ⟨.inl (by decide), List.forall_mem_singleton.2 (.inl (by decide))⟩
  refine ⟨redeclaring_acyclic, redeclaring_wellFormed, redeclaring_rooted, [f, g],
    redeclaring_instanceFields, List.mem_cons_self, ?_, ?_⟩
  · have hobject : Descriptor.isArray "Derived" = false := by decide
    obtain ⟨address, after, o, hrun, ho, hheld⟩ :=
      State.assumeExpands_holds (s := .root) (r := r) rfl hobject hdenotes
    obtain ⟨v, hv, -, hstands, -⟩ := hheld 1 g hlast
    refine ⟨address, after, o, v, hrun, ho, hv, ?_⟩
    cases hstands with
    | primitive htype =>
      cases htype.symm.trans hlong
      exact conformsTo_int_of_long rfl
    | reference hnone _ => cases hnone.symm.trans hlong
  · obtain ⟨address, after, o, hrun, ho, hheld⟩ :=
      State.createInstance_holds .root "Derived" hdenotes
    obtain ⟨v, hv, -, hdefault⟩ := hheld 1 g hlast
    have hzero : Value.default g.descriptor =
        .ok (.primitive (.constant (Constant.zero .long))) := by
      rw [Value.default, hlong]
    cases hdefault.symm.trans hzero
    exact ⟨address, after, o, _, hrun, ho, hv, conformsTo_int_of_long rfl⟩

end ClassTable

end SymbolicMachine
