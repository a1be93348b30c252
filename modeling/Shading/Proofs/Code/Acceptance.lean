import Shading.Proofs.Code.Clearing
import Shading.Proofs.Code.RoundTrip

/-!
# Words that a reader accepts

The converse of reading back: whatever a reader accepts, it accepts from words that are related to
the value it gives, in front of the words it leaves (`Admits`). For the operands of an instruction
the relation is encoding. So each instruction that is decoded is one that can be encoded, and its
words are those it was decoded from, its header apart (`admits_operands`).

Jumps are still led to addresses here; from an address, the jump to another one is the distance
between them (`gap`).
-/

namespace Shading

variable {α β ℓ : Type}

/-- Whatever the reader accepts are words with a value that they are related to, in front of the
words that it leaves. -/
def Admits (r : WordReader α) (P : List UInt32 → α → Prop) : Prop :=
  ∀ words x rest, r words = .ok (x, rest) → ∃ own, words = own ++ rest ∧ P own x

section

variable {r : WordReader α} {f : α → WordReader β} {P : List UInt32 → α → Prop}
  {Q : List UInt32 → β → Prop}

theorem Admits.pure {x : α} (h : P [] x) : Admits (pure x) P := by
  intro words y rest hy
  obtain ⟨rfl, rfl⟩ := Prod.mk.inj (Except.ok.inj hy)
  exact ⟨[], rfl, h⟩

theorem Admits.fail (cause : DecodeError) : Admits (.fail cause) P :=
  nofun

/-- What two readers accept one after the other are the words of the first, then those of the
second. -/
theorem Admits.bind (h : Admits r P)
    (h' : ∀ xs x, P xs x → Admits (f x) fun ys y ↦ Q (xs ++ ys) y) : Admits (r >>= f) Q := by
  intro words y rest hy
  obtain ⟨⟨x, mid⟩, hx, hrest⟩ := bind_eq_ok_iff.1 hy
  obtain ⟨xs, rfl, hxs⟩ := h words x mid hx
  obtain ⟨ys, rfl, hys⟩ := h' xs x hxs mid y rest hrest
  exact ⟨xs ++ ys, (List.append_assoc ..).symm, hys⟩

/-- A reader that is given by its words, followed by another one. -/
theorem Admits.then {w : α → List UInt32} (h : Admits r fun own x ↦ own = w x)
    (h' : ∀ x, Admits (f x) fun ys y ↦ Q (w x ++ ys) y) : Admits (r >>= f) Q :=
  h.bind fun _ x hx ↦ hx ▸ h' x

end

/-! ### Numbers -/

theorem admits_single : Admits .single fun own s ↦ own = [s.bits] := by
  intro words s rest h
  cases words with
  | nil => cases h
  | cons w words =>
    obtain ⟨rfl, rfl⟩ := Prod.mk.inj (Except.ok.inj h)
    exact ⟨[w], rfl, rfl⟩

theorem admits_get {cause : DecodeError} {a : Option α} :
    Admits (.get cause a) fun own x ↦ own = [] ∧ a = some x := by
  cases a with
  | none => exact .fail cause
  | some a => exact .pure ⟨rfl, rfl⟩

theorem admits_point : Admits .point fun own p ↦ own = operandWords p.toList :=
  admits_single.then fun _ ↦ admits_single.then fun _ ↦ .pure rfl

theorem admits_vec4 : Admits .vec4 fun own v ↦ own = operandWords v.toList :=
  admits_single.then fun _ ↦ admits_single.then fun _ ↦ admits_single.then fun _ ↦
    admits_single.then fun _ ↦ .pure rfl

theorem admits_affine : Admits .affine fun own m ↦ own = operandWords m.toList :=
  admits_single.then fun _ ↦ admits_single.then fun _ ↦ admits_single.then fun _ ↦
    admits_single.then fun _ ↦ admits_single.then fun _ ↦ admits_single.then fun _ ↦ .pure rfl

theorem admits_linearRamp : Admits .linearRamp fun own r ↦ own = operandWords r.operands :=
  admits_point.then fun _ ↦ admits_single.then fun _ ↦ .pure rfl

theorem admits_radialRamp : Admits .radialRamp fun own r ↦ own = operandWords r.operands :=
  admits_affine.then fun _ ↦ admits_single.then fun _ ↦ admits_single.then fun _ ↦ .pure rfl

theorem admits_linearAxis : Admits .linearAxis fun own r ↦ own = operandWords r.operands :=
  admits_affine.then fun _ ↦ admits_point.then fun _ ↦ admits_point.then fun _ ↦ .pure rfl

theorem admits_circlePair : Admits .circlePair fun own r ↦ own = operandWords r.operands :=
  admits_affine.then fun _ ↦ admits_point.then fun _ ↦ admits_single.then fun _ ↦
    admits_point.then fun _ ↦ admits_single.then fun _ ↦ .pure rfl

/-- A header announces depths exactly if there are any. -/
theorem admits_triangle (header : UInt32) :
    Admits (.triangle header) fun own t ↦
      own = operandWords t.operands ∧ t.depths.isSome = (header &&& perspectiveFlag != 0) := by
  have hcorners : Admits (.triple .point) fun own t ↦
      own = operandWords (t.toList.flatMap Point.toList) :=
    admits_point.then fun _ ↦ admits_point.then fun _ ↦ admits_point.then fun _ ↦ .pure rfl
  have hdepths : Admits (.triple .single) fun own t ↦ own = operandWords t.toList :=
    admits_single.then fun _ ↦ admits_single.then fun _ ↦ admits_single.then fun _ ↦ .pure rfl
  refine admits_single.then fun _ ↦ hcorners.then fun _ ↦ ?_
  split
  case isTrue h => exact hdepths.then fun _ ↦ .pure ⟨rfl, h.symm⟩
  case isFalse h => exact .pure ⟨rfl, (Bool.eq_false_iff.2 h).symm⟩

/-- Items of one word each. -/
theorem admits_items {item : WordReader α} {w : α → UInt32} {fits : α → Prop}
    (h : Admits item fun own x ↦ own = [w x] ∧ fits x) (n : Nat) :
    Admits (.items item n) fun own xs ↦
      own = xs.map w ∧ xs.length = n ∧ ∀ x ∈ xs, fits x := by
  induction n with
  | zero => exact .pure ⟨rfl, rfl, nofun⟩
  | succ n ih =>
    refine h.bind fun _ x hx ↦ ih.bind fun _ xs hxs ↦ .pure ?_
    rw [hx.1, hxs.1, List.append_nil]
    exact ⟨rfl, congrArg (· + 1) hxs.2.1, List.forall_mem_cons.2 ⟨hx.2, hxs.2.2⟩⟩

/-! ### Jumps -/

/-- The distance from an address to a later one, as a jump stores it. -/
def gap (a t : Nat) : UInt32 := UInt32.ofNat (t - a)

theorem resolveAll_ok (g : ℓ → UInt32) (ls : List ℓ) :
    resolveAll (fun l ↦ .ok (g l)) ls = .ok (ls.map g) := by
  induction ls with
  | nil => rfl
  | cons l ls ih =>
    rw [resolveAll, ih]
    rfl

section

variable (a : Nat)

/-- A target is read from the distance to it, which is not zero. -/
theorem admits_target : Admits (.target a) fun own t ↦ own = [gap a t] ∧ a < t := by
  intro words t rest h
  cases words with
  | nil => cases h
  | cons d words =>
    have htarget : (if d = 0 then WordReader.fail (.backwardJump a)
        else if a + d.toNat < 4294967296 then return a + d.toNat
        else WordReader.fail .targetRange : WordReader Nat) words = .ok (t, rest) := h
    split at htarget
    · cases htarget
    · rename_i hne
      split at htarget
      · obtain ⟨rfl, rfl⟩ := Prod.mk.inj (Except.ok.inj htarget)
        have hpos : d.toNat ≠ 0 := fun h ↦ hne (UInt32.toNat_inj.1 h)
        refine ⟨[d], rfl, ?_, by omega⟩
        rw [gap, Nat.add_sub_cancel_left, UInt32.ofNat_toNat]
      · cases htarget

/-- The four targets of a blend are all read from distances. -/
theorem admits_branches :
    Admits (.branches a) fun own b ↦
      own = b.targets.map (gap a) ∧ ∀ t ∈ b.targets, a < t := by
  refine (admits_target a).bind fun _ _ h0 ↦ (admits_target a).bind fun _ _ h1 ↦
    (admits_target a).bind fun _ _ h2 ↦ (admits_target a).bind fun _ _ h3 ↦ .pure ⟨?_, ?_⟩
  · rw [h0.1, h1.1, h2.1, h3.1]
    rfl
  · simp only [Branches.targets, List.forall_mem_cons]
    exact ⟨h0.2, h1.2, h2.2, h3.2, List.forall_mem_nil _⟩

/-- The table of a gradient passes its check, since the number of stops is read from the header. -/
theorem admits_stopTable (header : UInt32) :
    Admits (.stopTable a header) fun own x ↦
      encodeStops (fun t ↦ .ok (gap a t)) x.2 = .ok own ∧ checkTable x.2 = .ok () ∧
        x.2.ratios.length = headerStops header ∧
        Extend.ofCode? (header >>> 12 &&& 0xf).toNat = some x.1 ∧ ∀ t ∈ x.2.targets, a < t := by
  have hlt : headerStops header < 2 ^ 16 := by
    have := header.toNat_lt
    rw [toNat_headerStops]
    omega
  have hratios : Admits WordReader.single fun own s ↦ own = [s.bits] ∧ True :=
    fun words s rest h ↦ by simpa using admits_single words s rest h
  rw [WordReader.stopTable]
  split
  case isTrue => exact .fail _
  case isFalse hne =>
    refine admits_get.bind fun _ extend he ↦ (admits_target a).bind fun _ blend hb ↦
      (admits_target a).bind fun _ done hd ↦ (admits_items hratios _).bind fun _ ratios hr ↦
        (admits_items (admits_target a) _).bind fun _ stops hs ↦ .pure ⟨?_, ?_, hr.2.1, he.2, ?_⟩
    · rw [encodeStops, resolveAll_ok, resolveAll_ok, he.1, hb.1, hd.1, hr.1, hs.1,
        List.append_nil]
      rfl
    · rw [checkTable, if_neg]
      show ¬ (ratios.length = 0 ∨ 65535 < ratios.length ∨ stops.length ≠ ratios.length)
      omega
    · simp only [StopTable.targets, List.forall_mem_append, List.forall_mem_cons]
      exact ⟨hs.2.2, hb.2, hd.2, List.forall_mem_nil _⟩

/-! ### Instructions -/

/-- An instruction that is decoded at an address: its header is the one it was read from, but for
unused bits, its operands are encoded as the words they were read from, and its jumps lead ahead. -/
structure Accepted (header : UInt32) (own : List UInt32) (i : Instruction Nat) : Prop where
  header_eq : i.header = header &&& i.opcode.headerMask
  operands : encodeOperands (fun t ↦ .ok (gap a t)) i = .ok own
  ahead : ∀ t ∈ i.targets, a < t

/-- A gradient of either shape, given what is in front of its table. -/
theorem admits_gradient {header : UInt32} {r : WordReader α} {w : α → List UInt32}
    {f : α → Accuracy → Extend → StopTable Nat → Instruction Nat}
    {Q : List UInt32 → Instruction Nat → Prop} (first : Admits r fun own x ↦ own = w x)
    (accepted : ∀ x accuracy extend table own,
      Accuracy.ofCode? (header >>> 8 &&& 0xf).toNat = some accuracy →
      Extend.ofCode? (header >>> 12 &&& 0xf).toNat = some extend →
      table.ratios.length = headerStops header → checkTable table = .ok () →
      encodeStops (fun t ↦ .ok (gap a t)) table = .ok own → (∀ t ∈ table.targets, a < t) →
        Q (w x ++ own) (f x accuracy extend table)) :
    Admits (do
      let x ← r
      let (extend, table) ← .stopTable a header
      return f x (← .accuracy (header >>> 8 &&& 0xf)) extend table) Q := by
  refine first.then fun x ↦ (admits_stopTable a header).bind fun own ⟨extend, table⟩ ht ↦
    admits_get.bind fun _ accuracy ha ↦ .pure ?_
  obtain ⟨hencode, hcheck, hlength, hextend, hahead⟩ := ht
  rw [ha.1, List.append_nil, List.append_nil]
  exact accepted x accuracy extend table own ha.2 hextend hlength hcheck hencode hahead

/-- The operands of an instruction are accepted from the words that it is encoded as. -/
theorem admits_operands {header : UInt32} {opcode : Opcode}
    (h : Opcode.ofWord? header = some opcode) :
    Admits (.operands a header opcode) fun own i ↦ i.opcode = opcode ∧ Accepted a header own i := by
  have plain : ∀ {i : Instruction Nat} {own : List UInt32}, i.opcode = opcode → i.HeaderFits →
      i.opcode.headerMask = 0xff → i.headerValue = 0 → i.targets = [] →
        encodeOperands (fun t ↦ .ok (gap a t)) i = .ok own →
          i.opcode = opcode ∧ Accepted a header own i := by
    intro i own hi fits mask value targets encodes
    refine ⟨hi, header_of_plain (hi ▸ h) fits mask value, encodes, ?_⟩
    rw [targets]
    exact List.forall_mem_nil _
  cases opcode with
  | pushColor => exact admits_vec4.then fun _ ↦ .pure (plain rfl trivial rfl rfl rfl rfl)
  | multiplyScalar => exact admits_single.then fun _ ↦ .pure (plain rfl trivial rfl rfl rfl rfl)
  | filter =>
    exact admits_vec4.then fun _ ↦ admits_vec4.then fun _ ↦ admits_vec4.then fun _ ↦
      admits_vec4.then fun _ ↦ admits_vec4.then fun _ ↦
        .pure (plain rfl trivial rfl rfl rfl rfl)
  | opaqueJump =>
    refine (admits_target a).bind fun _ t ht ↦
      .pure ⟨rfl, header_of_plain h trivial rfl rfl, ?_, ?_⟩
    · rw [ht.1]
      rfl
    · exact fun _ hu ↦ List.mem_singleton.1 hu ▸ ht.2
  | blendCompose =>
    refine admits_get.bind fun _ compose hc ↦ admits_get.bind fun _ blend hb ↦ .pure ⟨rfl, ?_⟩
    rw [hc.1, hb.1]
    exact ⟨header_of_blendCompose h hc.2 hb.2, rfl, List.forall_mem_nil _⟩
  | phong =>
    refine admits_single.then fun shininess ↦
      .pure ⟨rfl, header_of_phong h, ?_, List.forall_mem_nil _⟩
    have hlights : ¬ 0xffffff < (header >>> 8).toNat := by
      have := header.toNat_lt
      rw [UInt32.toNat_shiftRight]
      show ¬ _ < header.toNat >>> 8
      rw [Nat.shiftRight_eq_div_pow]
      omega
    exact if_neg hlights
  | linearBlendRatio =>
    refine admits_linearRamp.then fun ramp ↦ admits_get.bind fun _ accuracy ha ↦
      (admits_branches a).bind fun _ branches hb ↦ .pure ⟨rfl, ?_, ?_, hb.2⟩
    · exact header_of_ramp (i := .linearBlendRatio ramp accuracy branches) h trivial rfl rfl ha.2
    · rw [encodeOperands, resolveAll_ok, ha.1, hb.1, List.append_nil]
      rfl
  | radialBlendRatio =>
    refine admits_radialRamp.then fun ramp ↦ admits_get.bind fun _ accuracy ha ↦
      (admits_branches a).bind fun _ branches hb ↦ .pure ⟨rfl, ?_, ?_, hb.2⟩
    · exact header_of_ramp (i := .radialBlendRatio ramp accuracy branches) h trivial rfl rfl ha.2
    · rw [encodeOperands, resolveAll_ok, ha.1, hb.1, List.append_nil]
      rfl
  | linearGradientRatio =>
    refine admits_gradient a admits_linearAxis
      fun axis accuracy extend table own ha he hlength hcheck hencode hahead ↦
        ⟨rfl, header_of_gradient h (Nat.lt_succ_of_le (complete_of_checkTable hcheck).2.1) rfl
          (hlength ▸ rfl) ha he, ?_, hahead⟩
    rw [encodeOperands, hcheck, hencode]
    rfl
  | radialGradientRatio =>
    refine admits_gradient a admits_circlePair
      fun circles accuracy extend table own ha he hlength hcheck hencode hahead ↦
        ⟨rfl, header_of_gradient h (Nat.lt_succ_of_le (complete_of_checkTable hcheck).2.1) rfl
          (hlength ▸ rfl) ha he, ?_, hahead⟩
    rw [encodeOperands, hcheck, hencode]
    rfl
  | barycentricBlend =>
    refine (admits_triangle header).bind fun _ triangle ht ↦ admits_get.bind fun _ accuracy ha ↦
      .pure ⟨rfl, header_of_barycentricBlend h ht.2 ha.2, ?_, List.forall_mem_nil _⟩
    rw [ht.1, ha.1, List.append_nil, List.append_nil]
    rfl
  | _ => exact .pure (plain rfl trivial rfl rfl rfl rfl)

end

end Shading
