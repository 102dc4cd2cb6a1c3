import SymbolicMachine.Proofs.Types.Grammar
/-!
# Parameter lists read by their bytes

A text in memory is the sequence of the bytes of its characters.  The parameters of a method can be
found in these bytes by two offsets, the start of a field descriptor and its end, without looking at
characters as such: the brackets, the letters and the semicolons that matter take one byte each, and
no byte of a longer character is one of them.  Each look at a byte and each cut of the text can go
wrong, a look if the offset is not inside, and a cut if it is not between two characters.  Neither
ever does, whatever the text is, and the fields found are those that a scan of the characters finds.
-/
namespace SymbolicMachine.ByteScan

/-- What comes of a scan of bytes. -/
inductive Scan (α : Type) where
  /-- A byte was looked at outside the text, or the text was cut inside a character. -/
  | fault
  /-- The text is not of the kind that is scanned. -/
  | malformed
  | done (result : α)

/-- A scan without faults. -/
def Scan.ofOption {α : Type} : Option α → Scan α
  | none => .malformed
  | some a => .done a

/-- The bytes of a text. -/
def encode (cs : List Char) : List UInt8 := cs.flatMap String.utf8EncodeChar

/-- The character whose only byte is this one, if it is less than 128. -/
def asChar (b : UInt8) : Char := Char.ofNat b.toNat

/-- The text before an offset and the text behind it.  The offset must be between two characters,
or at one of the ends. -/
def cut? : List Char → Nat → Option (List Char × List Char)
  | cs, 0 => some ([], cs)
  | [], _ + 1 => none
  | c :: cs, n + 1 =>
    if c.utf8Size ≤ n + 1 then
      (cut? cs (n + 1 - c.utf8Size)).map fun (before, behind) => (c :: before, behind)
    else none

/-- The text between two offsets. -/
def slice? (cs : List Char) (start stop : Nat) : Option (List Char) := do
  let (before, _) ← cut? cs stop
  let (_, piece) ← cut? before start
  pure piece

/-- The offset of the first place where a character stands. -/
def find? (c : Char) : List Char → Option Nat
  | [] => none
  | d :: cs => if d = c then some 0 else (find? c cs).map (d.utf8Size + ·)

/-- The offset of the first byte from another one on that is no opening bracket. -/
def skipBrackets (cs : List Char) (offset : Nat) : Scan Nat :=
  match _h : (encode cs)[offset]? with
  | none => .fault
  | some b =>
    if asChar b = '[' then
      if offset + 1 = (encode cs).length then .malformed else skipBrackets cs (offset + 1)
    else .done offset
  termination_by (encode cs).length - offset
  decreasing_by
    obtain ⟨hinside, -⟩ := List.getElem?_eq_some_iff.1 _h
    omega

/-- The offset behind the type without brackets that starts at an offset. -/
def elementEnd (cs : List Char) (offset : Nat) : Scan Nat :=
  match (encode cs)[offset]? with
  | none => .fault
  | some b =>
    if asChar b = 'L' then
      match cut? cs offset with
      | none => .fault
      | some (_, behind) =>
        match find? ';' behind with
        | none => .malformed
        | some length => .done (offset + length + 1)
    else if (PrimType.ofLetter? (asChar b)).isSome then .done (offset + 1)
    else .malformed

/-- The offset behind the field descriptor that starts at an offset. -/
def fieldEnd (cs : List Char) (start : Nat) : Scan Nat :=
  match skipBrackets cs start with
  | .fault => .fault
  | .malformed => .malformed
  | .done offset => elementEnd cs offset

theorem le_of_skipBrackets {cs : List Char} {start offset : Nat}
    (h : skipBrackets cs start = .done offset) : start ≤ offset := by
  fun_induction skipBrackets cs start with
  | case1 | case2 => cases h
  | case3 start _ _ _ _ ih => exact Nat.le_of_succ_le (ih h)
  | case4 =>
    cases h
    exact Nat.le_refl _

theorem lt_of_elementEnd {cs : List Char} {offset stop : Nat}
    (h : elementEnd cs offset = .done stop) : offset < stop := by
  unfold elementEnd at h
  repeat' split at h
  all_goals cases h
  · omega
  · omega

theorem lt_of_fieldEnd {cs : List Char} {start stop : Nat} (h : fieldEnd cs start = .done stop) :
    start < stop := by
  unfold fieldEnd at h
  split at h
  · cases h
  · cases h
  · rename_i offset hoffset
    exact Nat.lt_of_le_of_lt (le_of_skipBrackets hoffset) (lt_of_elementEnd h)

/-- The field descriptors from an offset on. -/
def fields (cs : List Char) (start : Nat) : Scan (List (List Char)) :=
  if start < (encode cs).length then
    match _h : fieldEnd cs start with
    | .fault => .fault
    | .malformed => .malformed
    | .done stop =>
      match slice? cs start stop with
      | none => .fault
      | some field =>
        match fields cs stop with
        | .done rest => .done (field :: rest)
        | .malformed => .malformed
        | .fault => .fault
  else .done []
  termination_by (encode cs).length - start
  decreasing_by
    have := lt_of_fieldEnd _h
    omega

/-- The field descriptors of the parameters of a method, found in the bytes of its descriptor. -/
def parameters (d : String) : Scan (List String) :=
  match Descriptor.splitMethod? d with
  | none => .malformed
  | some (cs, _) =>
    match fields cs 0 with
    | .fault => .fault
    | .malformed => .malformed
    | .done found => .done (found.map String.ofList)

/-! ## Single looks and cuts -/

variable {cs before behind : List Char} {c d : Char}

theorem encode_append (before behind : List Char) :
    encode (before ++ behind) = encode before ++ encode behind := List.flatMap_append

theorem encode_cons (c : Char) (cs : List Char) :
    encode (c :: cs) = String.utf8EncodeChar c ++ encode cs := List.flatMap_cons

theorem length_encode_cons (c : Char) (cs : List Char) :
    (encode (c :: cs)).length = c.utf8Size + (encode cs).length := by
  rw [encode_cons, List.length_append, String.length_utf8EncodeChar]

theorem toNat_asChar (b : UInt8) : (asChar b).toNat = b.toNat := by
  have hvalid : b.toNat.isValidChar := .inl (Nat.lt_trans b.toNat_lt (by decide))
  unfold asChar Char.ofNat
  rw [dif_pos hvalid]
  rfl

/-- The first byte of a character is the only byte of another one just if the two are the same. -/
theorem exists_first_byte (c : Char) :
    ∃ b rest, String.utf8EncodeChar c = b :: rest ∧
      ∀ d : Char, d.toNat < 128 → (asChar b = d ↔ c = d) := by
  -- All bytes of a character of two bytes or more are at least 128.
  have hlong : ∀ (b : UInt8) (d : Char), 128 ≤ b.toNat → 128 ≤ c.toNat → d.toNat < 128 →
      (asChar b = d ↔ c = d) := by
    intro b d hb hc hd
    rw [← Char.toNat_inj, ← Char.toNat_inj, toNat_asChar]
    omega
  unfold String.utf8EncodeChar
  dsimp only
  change ∃ b rest, (if c.toNat ≤ 127 then _ else _) = b :: rest ∧ _
  split
  · refine ⟨_, _, rfl, fun d _ => ?_⟩
    rw [← Char.toNat_inj, ← Char.toNat_inj, toNat_asChar, UInt8.toNat_ofNat']
    change c.toNat % _ = _ ↔ _
    omega
  · rename_i hc
    have hc' : 128 ≤ c.toNat := Nat.lt_of_not_le hc
    split
    · refine ⟨_, _, rfl, fun d => hlong _ d ?_ hc'⟩
      rw [UInt8.toNat_ofNat']
      omega
    · split
      · refine ⟨_, _, rfl, fun d => hlong _ d ?_ hc'⟩
        rw [UInt8.toNat_ofNat']
        omega
      · refine ⟨_, _, rfl, fun d => hlong _ d ?_ hc'⟩
        rw [UInt8.toNat_ofNat']
        omega

/-- A look at the place of a character tells apart the characters of one byte. -/
theorem exists_byte (before : List Char) (c : Char) (behind : List Char) :
    ∃ b, (encode (before ++ c :: behind))[(encode before).length]? = some b ∧
      ∀ d : Char, d.toNat < 128 → (asChar b = d ↔ c = d) := by
  obtain ⟨b, rest, hb, htells⟩ := exists_first_byte c
  refine ⟨b, ?_, htells⟩
  rw [encode_append, encode_cons, hb]
  simp

theorem cut?_append (before behind : List Char) :
    cut? (before ++ behind) (encode before).length = some (before, behind) := by
  induction before with
  | nil => simp [encode, cut?]
  | cons c cs ih =>
    have hpos := c.utf8Size_pos
    rw [length_encode_cons]
    obtain ⟨n, hn⟩ := Nat.exists_eq_succ_of_ne_zero
      (Nat.ne_of_gt (Nat.add_pos_left hpos (encode cs).length))
    have hle : c.utf8Size ≤ n + 1 := by omega
    have hrest : n + 1 - c.utf8Size = (encode cs).length := by omega
    rw [hn, List.cons_append, cut?, if_pos hle, hrest, ih]
    rfl

theorem slice?_append (before piece behind : List Char) :
    slice? (before ++ (piece ++ behind)) (encode before).length (encode (before ++ piece)).length =
      some piece := by
  unfold slice?
  rw [← List.append_assoc, cut?_append]
  change (cut? (before ++ piece) _ >>= _) = _
  rw [cut?_append]
  rfl

theorem find?_eq (c : Char) (cs : List Char) :
    find? c cs =
      match cs.dropWhile (· != c) with
      | [] => none
      | _ :: _ => some (encode (cs.takeWhile (· != c))).length := by
  induction cs with
  | nil => rfl
  | cons d cs ih =>
    by_cases hd : d = c
    · simp [find?, hd, encode]
    · have hne : (d != c) = true := bne_iff_ne.2 hd
      simp only [find?, if_neg hd, ih, List.dropWhile_cons, List.takeWhile_cons, hne, if_true,
        length_encode_cons]
      split <;> rfl

/-! ## Fields -/

theorem length_encode_concat (before : List Char) (c : Char) :
    (encode (before ++ [c])).length = (encode before).length + c.utf8Size := by
  rw [encode_append, List.length_append, length_encode_cons]
  rfl

theorem length_encode_eq_zero : (encode cs).length = 0 ↔ cs = [] := by
  cases cs with
  | nil => exact iff_of_true rfl rfl
  | cons c cs =>
    have hpos := c.utf8Size_pos
    rw [length_encode_cons]
    exact iff_of_false (by omega) nofun

theorem encode_length_lt (before : List Char) {behind : List Char} (hne : behind ≠ []) :
    (encode before).length < (encode (before ++ behind)).length := by
  have hpos : (encode behind).length ≠ 0 := fun h => hne (length_encode_eq_zero.1 h)
  rw [encode_append, List.length_append]
  omega

/-- A bracket is skipped if there is something behind it. -/
theorem skipBrackets_bracket (before behind : List Char) :
    skipBrackets (before ++ '[' :: behind) (encode before).length =
      if behind = [] then .malformed
      else skipBrackets (before ++ '[' :: behind) (encode (before ++ ['['])).length := by
  obtain ⟨b, hb, htells⟩ := exists_byte before '[' behind
  have hnext : (encode (before ++ ['['])).length = (encode before).length + 1 :=
    length_encode_concat before '['
  have htotal : (encode (before ++ '[' :: behind)).length =
      (encode (before ++ ['['])).length + (encode behind).length := by
    rw [← List.length_append, ← encode_append, List.append_assoc]
    rfl
  have hend : (encode before).length + 1 = (encode (before ++ '[' :: behind)).length ↔
      behind = [] := by
    rw [htotal, hnext, ← length_encode_eq_zero]
    omega
  rw [skipBrackets]
  split
  · rename_i h
    cases hb.symm.trans h
  · rename_i h
    cases hb.symm.trans h
    rw [if_pos ((htells '[' (by decide)).2 rfl), hnext]
    exact if_congr hend rfl rfl

theorem skipBrackets_of_ne (before : List Char) {c : Char} (hc : c ≠ '[') (behind : List Char) :
    skipBrackets (before ++ c :: behind) (encode before).length =
      .done (encode before).length := by
  obtain ⟨b, hb, htells⟩ := exists_byte before c behind
  rw [skipBrackets]
  split
  · rename_i h
    cases hb.symm.trans h
  · rename_i h
    cases hb.symm.trans h
    rw [if_neg fun h => hc ((htells '[' (by decide)).1 h)]

theorem letter_lt (t : PrimType) : t.letter.toNat < 128 := by
  cases t <;> decide

theorem elementEnd_class (before behind : List Char) :
    elementEnd (before ++ 'L' :: behind) (encode before).length =
      .ofOption ((find? ';' ('L' :: behind)).map fun length =>
        (encode before).length + length + 1) := by
  obtain ⟨b, hb, htells⟩ := exists_byte before 'L' behind
  simp only [elementEnd, hb, if_pos ((htells 'L' (by decide)).2 rfl), cut?_append]
  cases find? ';' ('L' :: behind) <;> rfl

theorem elementEnd_of_ne (before : List Char) (hc : c ≠ 'L') (behind : List Char) :
    elementEnd (before ++ c :: behind) (encode before).length =
      if (PrimType.ofLetter? c).isSome then .done ((encode before).length + 1) else .malformed := by
  obtain ⟨b, hb, htells⟩ := exists_byte before c behind
  have hclass : ¬asChar b = 'L' := fun h => hc ((htells 'L' (by decide)).1 h)
  have hletter : (PrimType.ofLetter? (asChar b)).isSome = (PrimType.ofLetter? c).isSome := by
    rw [Bool.eq_iff_iff, PrimType.isSome_ofLetter?_iff, PrimType.isSome_ofLetter?_iff]
    exact exists_congr fun t => htells t.letter (letter_lt t)
  simp only [elementEnd, hb, if_neg hclass, hletter]

/-- The end of a field descriptor is where the scan of the characters ends. -/
theorem fieldEnd_eq (before : List Char) {behind : List Char} (hne : behind ≠ []) :
    fieldEnd (before ++ behind) (encode before).length =
      .ofOption ((Descriptor.scanField behind).map fun (field, _) =>
        (encode (before ++ field)).length) := by
  induction behind using Descriptor.scanField.induct generalizing before with
  | case1 => exact absurd rfl hne
  | case2 cs ih =>
    rw [fieldEnd, skipBrackets_bracket, Descriptor.scanField]
    by_cases hcs : cs = []
    · subst hcs
      rfl
    · have hrest := ih (before ++ ['[']) hcs
      rw [fieldEnd, List.append_assoc] at hrest
      rw [if_neg hcs, Option.map_map]
      refine hrest.trans ?_
      simp only [Function.comp_def, List.append_assoc, List.singleton_append]
  | case3 cs semicolon rest hrest =>
    obtain ⟨rfl, -, -⟩ := Descriptor.eq_append_of_dropWhile_ne hrest
    rw [fieldEnd, skipBrackets_of_ne before (by decide)]
    dsimp only
    rw [elementEnd_class, find?, if_neg (by decide), find?_eq, hrest, Descriptor.scanField, hrest]
    simp only [Option.map_some, List.cons_append, encode_append, encode_cons, List.length_append,
      String.length_utf8EncodeChar]
    rfl
  | case4 cs hrest =>
    rw [fieldEnd, skipBrackets_of_ne before (by decide)]
    dsimp only
    rw [elementEnd_class, find?, if_neg (by decide), find?_eq, hrest, Descriptor.scanField, hrest]
    rfl
  | case5 c cs hbracket hclass hletter =>
    obtain ⟨t, rfl⟩ := PrimType.isSome_ofLetter?_iff.1 hletter
    rw [fieldEnd, skipBrackets_of_ne before hbracket]
    dsimp only
    rw [elementEnd_of_ne before hclass, if_pos hletter, Descriptor.scanField_of_ne hbracket hclass,
      if_pos hletter, Option.map_some, length_encode_concat]
    cases t <;> rfl
  | case6 c cs hbracket hclass hletter =>
    rw [fieldEnd, skipBrackets_of_ne before hbracket]
    dsimp only
    rw [elementEnd_of_ne before hclass, if_neg hletter, Descriptor.scanField_of_ne hbracket hclass,
      if_neg hletter]
    rfl

/-- The fields found in the bytes are those that the scan of the characters finds. -/
theorem fields_eq (before behind : List Char) :
    fields (before ++ behind) (encode before).length =
      .ofOption (Descriptor.scanFields behind) := by
  induction behind using Descriptor.scanFields.induct generalizing before with
  | case1 =>
    rw [fields, Descriptor.scanFields, List.append_nil, if_neg (Nat.lt_irrefl _)]
    rfl
  | case2 cs hne hfield =>
    have hend := fieldEnd_eq before hne
    rw [hfield] at hend
    rw [fields, if_pos (encode_length_lt before hne), Descriptor.scanFields_of_none hne hfield]
    split <;> rename_i h <;> cases hend.symm.trans h
    rfl
  | case3 cs hne field rest hfield ih =>
    have hend := fieldEnd_eq before hne
    rw [hfield] at hend
    have hrest := ih (before ++ field)
    have hslice := slice?_append before field rest
    rw [List.append_assoc, Descriptor.scanField_append hfield] at hrest
    rw [Descriptor.scanField_append hfield] at hslice
    rw [fields, if_pos (encode_length_lt before hne), Descriptor.scanFields_of_some hfield]
    split <;> rename_i h <;> cases hend.symm.trans h
    simp only [hslice, hrest]
    cases Descriptor.scanFields rest <;> rfl

/-- No look and no cut goes wrong, whatever the text is, and what is found are the types of the
parameters. -/
theorem parameters_eq (d : String) :
    parameters d = .ofOption (Descriptor.parameterTypes d).toOption := by
  unfold parameters Descriptor.parameterTypes
  cases Descriptor.splitMethod? d with
  | none => rfl
  | some parts =>
    have hfields : fields parts.1 0 = .ofOption (Descriptor.scanFields parts.1) :=
      fields_eq [] parts.1
    dsimp only [Option.bind_some]
    rw [hfields]
    cases Descriptor.scanFields parts.1 <;> rfl

end SymbolicMachine.ByteScan
