import Mathlib
import Gantry.Settings.Stage

set_option autoImplicit false

namespace Gantry

def spelled (plus : Bool) (zeros n : Nat) : List Char :=
  (if plus then ['+'] else []) ++ (List.replicate zeros '0' ++ Nat.toDigits 10 n)

theorem isDigit_of_mem {zeros n : Nat} {c : Char}
    (h : c ∈ List.replicate zeros '0' ++ Nat.toDigits 10 n) : c.isDigit = true := by
  rcases List.mem_append.1 h with h | h
  · rw [List.eq_of_mem_replicate h]
    decide
  · exact Nat.isDigit_of_mem_toDigits (by omega) le_rfl h

theorem underscore_notMem_spelled (plus : Bool) (zeros n : Nat) : '_' ∉ spelled plus zeros n := by
  intro h
  rcases List.mem_append.1 h with h | h
  · cases plus <;> simp at h
  · exact absurd (isDigit_of_mem h) (by decide)

theorem digitChar_of_isDigit {c : Char} (h : c.isDigit = true) :
    (c.toNat - '0'.toNat).digitChar = c ∧ c.toNat - '0'.toNat < 10 := by
  have hc : 48 ≤ c.toNat ∧ c.toNat ≤ 57 := by
    simpa [Char.isDigit,UInt32.le_iff_toNat_le] using h
  have hz : '0'.toNat = 48 := rfl
  refine ⟨Char.toNat_inj.1 ?_,by omega⟩
  rw [Nat.toNat_digitChar_of_lt_ten (by omega)]
  omega

theorem exists_zeros {ds : List Char} (hne : ds ≠ []) (h : ∀ c ∈ ds, c.isDigit = true) :
    ∃ zeros, ds = List.replicate zeros '0' ++ Nat.toDigits 10 (Nat.ofDigitChars 10 ds 0) := by
  induction ds using List.reverseRecOn with
  | nil => exact absurd rfl hne
  | append_singleton ds c ih =>
    obtain ⟨hchar,hlt⟩ := digitChar_of_isDigit (h c (by simp))
    have hdigit : Nat.toDigits 10 (c.toNat - '0'.toNat) = [c] := by
      rw [Nat.toDigits_of_lt_base hlt,hchar]
    have hvalue : Nat.ofDigitChars 10 (ds ++ [c]) 0 =
        10 * Nat.ofDigitChars 10 ds 0 + (c.toNat - '0'.toNat) := by
      rw [Nat.ofDigitChars_append,Nat.ofDigitChars_cons,Nat.ofDigitChars_nil]
    rw [hvalue]
    rcases eq_or_ne ds [] with rfl | hds
    · refine ⟨0,?_⟩
      rw [Nat.ofDigitChars_nil,Nat.mul_zero,Nat.zero_add,hdigit]
      rfl
    · obtain ⟨zeros,hz⟩ := ih hds fun c hc => h c (by simp [hc])
      rcases Nat.eq_zero_or_pos (Nat.ofDigitChars 10 ds 0) with hv | hv
      · -- all zeros so far: what stood for their value is one more of them
        rw [hv] at hz ⊢
        refine ⟨zeros + 1,?_⟩
        rw [Nat.mul_zero,Nat.zero_add,hdigit,List.replicate_succ',hz]
        rfl
      · refine ⟨zeros,?_⟩
        rw [← Nat.toDigits_append_toDigits (by omega) hv hlt,hdigit,← List.append_assoc,← hz]

def lastPart (cs : List Char) : List Char := (cs.reverse.takeWhile (· ≠ '_')).reverse

theorem lastPart_append {lead w : List Char} (h : '_' ∉ w) : lastPart (lead ++ ['_'] ++ w) = w := by
  have hw : ∀ c ∈ w.reverse, decide (c ≠ '_') = true := by
    intro c hc
    exact decide_eq_true fun he => h (he ▸ List.mem_reverse.1 hc)
  simp only [lastPart,List.reverse_append,List.takeWhile_append_of_pos hw]
  simp

theorem lastPart_suffix (cs : List Char) : lastPart cs <:+ cs :=
  List.reverse_prefix.1 (by simpa [lastPart] using List.takeWhile_prefix _)

namespace StageField

theorem mem_all (f : StageField) : f ∈ all := by
  rcases f with _ | _ | ⟨_ | _ | _⟩ <;> decide

theorem name_injective {f g : StageField} (h : f.name = g.name) : f = g := by
  rcases f with _ | _ | ⟨_ | _ | _⟩ <;> rcases g with _ | _ | ⟨_ | _ | _⟩ <;>
    first | rfl | exact absurd h (by decide)

def spelling (f : StageField) (plus : Bool) (zeros i : Nat) : String :=
  f.name ++ "_" ++ String.ofList (spelled plus zeros i)

theorem toList_spelling (f : StageField) (plus : Bool) (zeros i : Nat) :
    (f.spelling plus zeros i).toList = f.name.toList ++ ['_'] ++ spelled plus zeros i := by
  simp [spelling]

theorem key_eq_spelling (f : StageField) (i : Nat) : f.key i = f.spelling false 0 i := by
  apply String.toList_injective
  simp [key,spelling,spelled,Nat.toString_eq_repr]

end StageField

namespace StageOptions

theorem number?_digits {ds : List Char} (hne : ds ≠ []) (h : ∀ c ∈ ds, c.isDigit = true) :
    number? ds = some (Nat.ofDigitChars 10 ds 0) ∧
      number? ('+' :: ds) = some (Nat.ofDigitChars 10 ds 0) := by
  have hall : ds.all Char.isDigit = true := List.all_eq_true.2 h
  constructor
  · unfold number?
    split
    · exact absurd (h '+' List.mem_cons_self) (by decide)
    · simp [hne,hall,Nat.ofDigitChars,Nat.mul_comm]
  · simp [number?,hne,hall,Nat.ofDigitChars,Nat.mul_comm]

theorem number?_spelled (plus : Bool) (zeros n : Nat) : number? (spelled plus zeros n) = some n := by
  have hne : List.replicate zeros '0' ++ Nat.toDigits 10 n ≠ [] := by
    simp [Nat.toDigits_ne_nil]
  have hvalue : Nat.ofDigitChars 10 (List.replicate zeros '0' ++ Nat.toDigits 10 n) 0 = n := by
    rw [Nat.ofDigitChars_append,Nat.ofDigitChars_replicate_zero]
    exact Nat.ofDigitChars_toDigits (by omega) le_rfl
  obtain ⟨hbare,hplus⟩ := number?_digits hne fun c hc => isDigit_of_mem hc
  cases plus with
  | false => simpa [spelled,hvalue] using hbare
  | true => simpa [spelled,hvalue] using hplus

theorem exists_digits {w : List Char} {n : Nat} (h : number? w = some n) :
    ∃ (plus : Bool) (ds : List Char), w = (if plus then ['+'] else []) ++ ds ∧ ds ≠ [] ∧
      (∀ c ∈ ds, c.isDigit = true) ∧ Nat.ofDigitChars 10 ds 0 = n := by
  have hread : ∀ ds : List Char, (if ds ≠ [] ∧ ds.all Char.isDigit = true then
      some (ds.foldl (fun n c => n * 10 + (c.toNat - '0'.toNat)) 0) else none) = some n →
      ds ≠ [] ∧ (∀ c ∈ ds, c.isDigit = true) ∧ Nat.ofDigitChars 10 ds 0 = n := by
    intro ds hds
    split at hds
    · rename_i hdigits
      exact ⟨hdigits.1,List.all_eq_true.1 hdigits.2,
        by simpa [Nat.ofDigitChars,Nat.mul_comm] using Option.some.inj hds⟩
    · cases hds
  unfold number? at h
  split at h
  · rename_i ds
    exact ⟨true,ds,rfl,hread ds h⟩
  · exact ⟨false,w,rfl,hread w h⟩

/-- A number is read exactly from its spellings. -/
theorem number?_eq_some {w : List Char} {n : Nat} :
    number? w = some n ↔ ∃ plus zeros, w = spelled plus zeros n := by
  constructor
  · intro h
    obtain ⟨plus,ds,rfl,hne,hds,rfl⟩ := exists_digits h
    obtain ⟨zeros,hz⟩ := exists_zeros hne hds
    exact ⟨plus,zeros,by rw [spelled,← hz]⟩
  · rintro ⟨plus,zeros,rfl⟩
    exact number?_spelled plus zeros n

end StageOptions

theorem spelled_injective {p p' : Bool} {z z' n n' : Nat} (h : spelled p z n = spelled p' z' n') :
    p = p' ∧ z = z' ∧ n = n' := by
  have hn : n = n' := by
    have hread := StageOptions.number?_spelled p z n
    rw [h,StageOptions.number?_spelled] at hread
    exact (Option.some.inj hread).symm
  subst hn
  have hsign : ∀ z z', spelled true z n ≠ spelled false z' n := by
    intro z z' h
    have hmem : '+' ∈ spelled false z' n := h ▸ List.mem_append_left _ List.mem_cons_self
    exact absurd (isDigit_of_mem hmem) (by decide)
  have hzeros : (spelled p z n).length = (spelled p' z' n).length := congrArg List.length h
  cases p <;> cases p'
  · exact ⟨rfl,by simpa [spelled] using hzeros,rfl⟩
  · exact absurd h.symm (hsign z' z)
  · exact absurd h (hsign z z')
  · exact ⟨rfl,by simpa [spelled] using hzeros,rfl⟩

namespace StageField

theorem lastPart_spelling (f : StageField) (plus : Bool) (zeros i : Nat) :
    lastPart (f.spelling plus zeros i).toList = spelled plus zeros i := by
  rw [toList_spelling]
  exact lastPart_append (underscore_notMem_spelled plus zeros i)

theorem spelling_injective {f g : StageField} {p p' : Bool} {z z' i i' : Nat}
    (h : f.spelling p z i = g.spelling p' z' i') : f = g ∧ p = p' ∧ z = z' ∧ i = i' := by
  have hw : spelled p z i = spelled p' z' i' := by
    rw [← lastPart_spelling f,h,lastPart_spelling]
  have hname : f.name.toList = g.name.toList := by
    have hl := congrArg String.toList h
    rw [toList_spelling,toList_spelling,hw] at hl
    simpa using hl
  exact ⟨name_injective (String.toList_injective hname),spelled_injective hw⟩

theorem key_injective {f g : StageField} {i j : Nat} (h : f.key i = g.key j) : f = g ∧ i = j := by
  rw [key_eq_spelling,key_eq_spelling] at h
  obtain ⟨hf,-,-,hi⟩ := spelling_injective h
  exact ⟨hf,hi⟩

end StageField

namespace StageOptions

theorem belongs_eq {n : Nat} {key : String} {lead : List Char}
    (h : key.toList = lead ++ lastPart key.toList) : belongs n key =
      match number? (lastPart key.toList) with
      | some i => decide (i < n) && StageField.all.any fun f => f.name.toList ++ ['_'] == lead
      | none => false := by
  have hlead : key.toList.take (key.length - (lastPart key.toList).length) = lead := by
    have hlen : key.length - (lastPart key.toList).length = lead.length := by
      have hl := congrArg List.length h
      rw [List.length_append,String.length_toList] at hl
      omega
    rw [hlen,h,List.take_left]
  rw [← hlead]
  rfl

/-- A name belongs to a stage exactly if it is that of a field, with the number spelled in any
way. -/
theorem belongs_iff {n : Nat} {key : String} : belongs n key = true ↔
    ∃ f plus zeros i, i < n ∧ key = StageField.spelling f plus zeros i := by
  constructor
  · intro h
    obtain ⟨lead,hlead⟩ := lastPart_suffix key.toList
    rw [belongs_eq hlead.symm] at h
    split at h
    · rename_i i hi
      rw [Bool.and_eq_true,decide_eq_true_eq,List.any_eq_true] at h
      obtain ⟨hlt,f,-,hf⟩ := h
      obtain ⟨plus,zeros,hw⟩ := number?_eq_some.1 hi
      refine ⟨f,plus,zeros,i,hlt,String.toList_injective ?_⟩
      rw [StageField.toList_spelling,← hlead,← eq_of_beq hf,hw]
    · cases h
  · rintro ⟨f,plus,zeros,i,hlt,rfl⟩
    have hsplit := f.toList_spelling plus zeros i
    rw [← f.lastPart_spelling plus zeros i] at hsplit
    rw [belongs_eq hsplit,f.lastPart_spelling,number?_spelled]
    simp only [hlt,decide_true,Bool.true_and,List.any_eq_true]
    exact ⟨f,f.mem_all,beq_self_eq_true _⟩

end StageOptions

end Gantry
