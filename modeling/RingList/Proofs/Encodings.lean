import Mathlib.Algebra.Order.Group.Int
import Mathlib.Algebra.Order.Ring.Abs
import Mathlib.Data.Int.ModEq
import RingList.Value.Hook

/-!
# Encodings of values

What a value feeds a hasher tells it apart from other values if equal values feed the same bytes and
no value feeds a proper beginning of what another one feeds (`Encoding`). Then the bytes of several
values in a row tell the values apart as well. The values of every type that has a hash are fed so:
numbers, characters and truth values take a fixed number of bytes, lowest first
(`littleEndian_inj`), and texts are followed by a byte that does not occur in UTF-8
(`not_mem_toUTF8`).
-/

set_option autoImplicit false

namespace RingList

variable {α : Type}

/-- **The bytes encode the values** that `P` holds of, up to the equality `eq`. -/
structure Encoding (bytes : α → List UInt8) (eq : α → α → Bool) (P : α → Prop) : Prop where
  agrees : ∀ x y, P x → P y → (bytes x = bytes y ↔ eq x y = true)
  /-- The bytes of a value are no proper beginning of those of another one. -/
  prefixFree : ∀ x y, P x → P y → bytes x <+: bytes y → bytes x = bytes y

/-! ## Numbers -/

@[simp] theorem length_littleEndian (width n : Nat) : (littleEndian width n).length = width := by
  induction width generalizing n with
  | zero => rfl
  | succ width ih => simp [littleEndian, ih]

theorem littleEndian_inj : ∀ {width m n : Nat}, m < 256 ^ width → n < 256 ^ width →
    (littleEndian width m = littleEndian width n ↔ m = n)
  | 0, m, n, hm, hn => by
    simp only [littleEndian, true_iff]
    omega
  | width + 1, m, n, hm, hn => by
    refine ⟨fun h => ?_, fun h => h ▸ rfl⟩
    obtain ⟨hlow, hhigh⟩ := List.cons.inj h
    have hlow : m % 256 = n % 256 := by simpa using congrArg UInt8.toNat hlow
    have hhigh : m / 256 = n / 256 := by
      refine (littleEndian_inj ?_ ?_).1 hhigh
      · exact Nat.div_lt_of_lt_mul (by rwa [pow_succ'] at hm)
      · exact Nat.div_lt_of_lt_mul (by rwa [pow_succ'] at hn)
    omega

/-! ## Texts -/

theorem toList_loop (bs : ByteArray) (i : Nat) (acc : List UInt8) :
    ByteArray.toList.loop bs i acc = acc.reverse ++ bs.data.toList.drop i := by
  fun_induction ByteArray.toList.loop bs i acc with
  | case1 i acc h ih =>
    have hi : i < bs.data.toList.length := by simpa using h
    have hget : bs.get! i = bs.data.toList[i] := by simp [ByteArray.get!, h]
    rw [ih, List.drop_eq_getElem_cons hi, hget]
    simp
  | case2 i acc h =>
    rw [List.drop_eq_nil_of_le (by simpa using Nat.le_of_not_lt h), List.append_nil]

theorem toList_eq (bs : ByteArray) : bs.toList = bs.data.toList := toList_loop bs 0 []

/-- The bytes of a text are those of its characters. -/
theorem toUTF8_toList (s : String) : s.toUTF8.toList = s.toList.flatMap String.utf8EncodeChar := by
  rw [toList_eq, String.toUTF8_eq_toByteArray, ← String.utf8Encode_toList, List.utf8Encode]
  simp

theorem toUTF8_inj {s t : String} : s.toUTF8.toList = t.toUTF8.toList ↔ s = t := by
  rw [toList_eq, toList_eq, String.toUTF8_eq_toByteArray, String.toUTF8_eq_toByteArray]
  refine ⟨fun h => ?_, fun h => h ▸ rfl⟩
  exact String.toByteArray_inj.1 (ByteArray.ext (Array.toList_inj.1 h))

/-- **No byte of a text is the one that is fed behind it.** -/
theorem not_mem_toUTF8 (s : String) : 255 ∉ s.toUTF8.toList := by
  rw [toUTF8_toList, List.mem_flatMap]
  rintro ⟨c, -, hc⟩
  -- the first byte of a character is at most 247, and the others are less than 192
  have hofNat : ∀ n < 255, (255 : UInt8) ≠ UInt8.ofNat n := by
    intro n hn h
    have := congrArg UInt8.toNat h
    simp at this
    omega
  unfold String.utf8EncodeChar at hc
  simp only at hc
  split_ifs at hc <;> simp only [List.mem_cons, List.not_mem_nil, or_false] at hc
  · exact hofNat _ (by omega) hc
  · rcases hc with hc | hc
    all_goals exact hofNat _ (by omega) hc
  · rcases hc with hc | hc | hc
    all_goals exact hofNat _ (by omega) hc
  · rcases hc with hc | hc | hc | hc
    all_goals exact hofNat _ (by omega) hc

/-- Sequences without the byte that is fed behind them. -/
theorem eq_of_prefix_concat {b : UInt8} : ∀ {xs ys : List UInt8}, b ∉ xs → b ∉ ys →
    xs ++ [b] <+: ys ++ [b] → xs = ys
  | [], [], _, _, _ => rfl
  | [], y :: ys, _, hy, h => by
    obtain ⟨rfl, -⟩ := List.cons_prefix_cons.1 h
    exact absurd List.mem_cons_self hy
  | x :: xs, [], hx, _, h => by
    obtain ⟨rfl, -⟩ := List.cons_prefix_cons.1 h
    exact absurd List.mem_cons_self hx
  | x :: xs, y :: ys, hx, hy, h => by
    obtain ⟨rfl, htail⟩ := List.cons_prefix_cons.1 h
    rw [eq_of_prefix_concat (List.not_mem_of_not_mem_cons hx) (List.not_mem_of_not_mem_cons hy) htail]

/-! ## Values -/

/-- The values of a type. -/
inductive ValueType.Contains : ValueType → Value → Prop
  | number {t : ValueType} {n : Int} (h : t.fits n = true) : Contains t (.number n)
  | char (c : Char) : Contains .char (.char c)
  | bool (b : Bool) : Contains .bool (.bool b)
  | unit : Contains .unit .unit
  | text (s : String) : Contains .text (.text s)
  | object (reference : Reference) (id : Nat) (s : String) :
    Contains (.object reference) (.object id s)
  | slice (base start stop : Nat) (s : String) : Contains .slice (.slice base start stop s)

/-- Numbers of the type take at least one byte, and no parts of bytes. -/
def ValueType.InBytes (t : ValueType) : Prop :=
  ∀ sign bits, t.number? = some (sign, bits) → 8 ∣ bits ∧ 0 < bits

namespace ValueType

variable {t : ValueType}

/-- Numbers of a type that leave the same remainder by the number of its values are equal. -/
theorem emod_inj {bits : Nat} {sign : Bool} (ht : t.number? = some (sign, bits)) (hbits : 0 < bits)
    {m n : Int} (hm : t.fits m = true) (hn : t.fits n = true)
    (h : m % 1 <<< bits = n % 1 <<< bits) : m = n := by
  have hpow : 1 <<< bits = 2 * 1 <<< (bits - 1) := by
    obtain ⟨b, rfl⟩ : ∃ b, bits = b + 1 := ⟨bits - 1, by omega⟩
    simp [Nat.shiftLeft_eq, pow_succ']
  have hdvd : ((1 <<< bits : Nat) : Int) ∣ m - n := Int.ModEq.dvd h.symm
  have hdiff : |m - n| < 1 <<< bits := by
    rw [abs_lt]
    cases sign <;> simp only [fits, ht, decide_eq_true_eq] at hm hn <;> omega
  exact sub_eq_zero.1 (Int.eq_zero_of_abs_lt_dvd hdvd hdiff)

theorem number?_of_fits {n : Int} (h : t.fits n = true) :
    ∃ sign bits, t.number? = some (sign, bits) := by
  unfold fits at h
  split at h
  · exact ⟨_, _, ‹_›⟩
  · exact ⟨_, _, ‹_›⟩
  · cases h

theorem bytes_number {bits : Nat} {sign : Bool} (ht : t.number? = some (sign, bits)) (n : Int) :
    t.bytes (.number n) = littleEndian (bits / 8) (n % 1 <<< bits).toNat := by
  simp only [bytes, ht]

theorem bytes_number_inj (hin : t.InBytes) {m n : Int} (hm : t.fits m = true)
    (hn : t.fits n = true) : t.bytes (.number m) = t.bytes (.number n) ↔ m = n := by
  obtain ⟨sign, bits, ht⟩ := number?_of_fits hm
  obtain ⟨hdvd, hbits⟩ := hin sign bits ht
  have hwidth : 256 ^ (bits / 8) = 1 <<< bits := by
    obtain ⟨k, rfl⟩ := hdvd
    simp [Nat.shiftLeft_eq, pow_mul]
  have hpos : (0 : Int) < (1 <<< bits : Nat) := by simp [Nat.shiftLeft_eq]
  have hlt : ∀ k : Int, (k % 1 <<< bits).toNat < 256 ^ (bits / 8) := by
    intro k
    have := Int.emod_lt_of_pos k hpos
    omega
  rw [bytes_number ht, bytes_number ht, littleEndian_inj (hlt m) (hlt n)]
  refine ⟨fun h => emod_inj ht hbits hm hn ?_, fun h => h ▸ rfl⟩
  have := Int.emod_nonneg m hpos.ne'
  have := Int.emod_nonneg n hpos.ne'
  omega

section
variable {x y : Value} {s s' : String}

theorem bytes_text (t : ValueType) (hx : x.text? = some s) : t.bytes x = s.toUTF8.toList ++ [255] := by
  cases x <;> cases hx <;> rfl

theorem equal_text (t : ValueType) (hx : x.text? = some s) (hy : y.text? = some s') :
    t.equal x y = (s == s') := by
  cases x <;> cases hx <;> cases y <;> cases hy <;> rfl

/-- Two values of a type are numbers, characters, truth values, units or texts. -/
theorem Contains.alike (hx : t.Contains x) (hy : t.Contains y) :
    (∃ m n, x = .number m ∧ y = .number n ∧ t.fits m = true ∧ t.fits n = true) ∨
      (∃ c d, x = .char c ∧ y = .char d) ∨ (∃ a b, x = .bool a ∧ y = .bool b) ∨
      (x = .unit ∧ y = .unit) ∨ ∃ s s', x.text? = some s ∧ y.text? = some s' := by
  cases hx with
  | number h =>
    cases hy with
    | number h' => exact .inl ⟨_, _, rfl, rfl, h, h'⟩
    | _ => cases h
  | char c =>
    cases hy with
    | number h => cases h
    | char d => exact .inr (.inl ⟨c, d, rfl, rfl⟩)
  | bool a =>
    cases hy with
    | number h => cases h
    | bool b => exact .inr (.inr (.inl ⟨a, b, rfl, rfl⟩))
  | unit =>
    cases hy with
    | number h => cases h
    | unit => exact .inr (.inr (.inr (.inl ⟨rfl, rfl⟩)))
  | text s =>
    cases hy with
    | number h => cases h
    | text s' => exact .inr (.inr (.inr (.inr ⟨s, s', rfl, rfl⟩)))
  | object _ _ s =>
    cases hy with
    | number h => cases h
    | object _ _ s' => exact .inr (.inr (.inr (.inr ⟨s, s', rfl, rfl⟩)))
  | slice _ _ _ s =>
    cases hy with
    | number h => cases h
    | slice _ _ _ s' => exact .inr (.inr (.inr (.inr ⟨s, s', rfl, rfl⟩)))

end

/-- **What the values of a type feed a hasher encodes them**, up to the equality of the type. -/
theorem encoding (ht : t.hasHash = true) (hin : t.InBytes) : Encoding t.bytes t.equal t.Contains where
  agrees x y hx hy := by
    rcases hx.alike hy with ⟨m, n, rfl, rfl, hm, hn⟩ | ⟨c, d, rfl, rfl⟩ | ⟨a, b, rfl, rfl⟩ |
      ⟨rfl, rfl⟩ | ⟨s, s', hs, hs'⟩
    · have hleq : t ≠ .leq := fun h => by rw [h] at ht; cases ht
      have hequal : t.equal (.number m) (.number n) = (m == n) := if_neg hleq
      rw [bytes_number_inj hin hm hn, hequal, beq_iff_eq]
    · have hlt : ∀ e : Char, e.toNat < 256 ^ 4 := fun e => e.val.toNat_lt
      have hinj : c.toNat = d.toNat ↔ c = d :=
        ⟨fun h => Char.ext (UInt32.toNat_inj.1 h), fun h => h ▸ rfl⟩
      show littleEndian 4 c.toNat = littleEndian 4 d.toNat ↔ (c == d) = true
      rw [littleEndian_inj (hlt c) (hlt d), hinj, beq_iff_eq]
    · show [if a then 1 else 0] = [if b then 1 else 0] ↔ (a == b) = true
      cases a <;> cases b <;> decide
    · exact ⟨fun _ => rfl, fun _ => rfl⟩
    · rw [bytes_text t hs, bytes_text t hs', equal_text t hs hs', List.append_left_inj, toUTF8_inj]
      simp
  prefixFree x y hx hy h := by
    rcases hx.alike hy with ⟨m, n, rfl, rfl, hm, -⟩ | ⟨c, d, rfl, rfl⟩ | ⟨a, b, rfl, rfl⟩ |
      ⟨rfl, rfl⟩ | ⟨s, s', hs, hs'⟩
    · obtain ⟨sign, bits, ht⟩ := number?_of_fits hm
      exact h.eq_of_length (by simp [bytes_number ht])
    · exact h.eq_of_length (by simp [bytes])
    · exact h.eq_of_length (by simp [bytes])
    · rfl
    · rw [bytes_text t hs, bytes_text t hs'] at h ⊢
      rw [eq_of_prefix_concat (not_mem_toUTF8 s) (not_mem_toUTF8 s') h]

end ValueType

end RingList
