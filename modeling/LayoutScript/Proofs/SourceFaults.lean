import LayoutScript.Apply.Fields
import LayoutScript.Bits.Reader
import LayoutScript.Proofs.Stateful

/-! # Faults of sources

The ordinary reader fails in one way only, at the end of the input, unless it is asked for a
number of bits that no byte has. An array fails where one of its elements fails, or because
it is too large.
-/
namespace LayoutScript

/-- An action fails by nothing but faults that satisfy `P`. -/
def FailsBy {σ α : Type} (P : Fault → Prop) (action : Stateful σ α) : Prop :=
  ∀ s fault s', action s = (.error fault, s') → P fault

namespace FailsBy
variable {σ α β : Type} {P Q : Fault → Prop}

theorem mono (hPQ : ∀ fault, P fault → Q fault) {action : Stateful σ α} (h : FailsBy P action) :
    FailsBy Q action :=
  fun s fault s' heq => hPQ fault (h s fault s' heq)

theorem of_pure (a : α) : FailsBy P (pure a : Stateful σ α) := by
  intro s fault s' heq
  cases heq

theorem of_throw {fault : Fault} (h : P fault) : FailsBy P (throw fault : Stateful σ α) := by
  intro s fault' s' heq
  cases heq
  exact h

theorem of_get : FailsBy P (get : Stateful σ σ) := by
  intro s fault s' heq
  cases heq

theorem of_modify (f : σ → σ) : FailsBy P (modify f : Stateful σ PUnit) := by
  intro s fault s' heq
  cases heq

theorem bind {x : Stateful σ α} {f : α → Stateful σ β} (hx : FailsBy P x) (hf : ∀ a, FailsBy P (f a)) :
    FailsBy P (x >>= f) := by
  intro s fault s' heq
  rcases Stateful.of_bind_error heq with heq | ⟨a, s₁, -, heq⟩
  · exact hx s fault s' heq
  · exact hf a s₁ fault s' heq

theorem repeatedly {action : Stateful σ α} (h : FailsBy P action) (n : Nat) : FailsBy P (action.repeatedly n) := by
  induction n with
  | zero => exact of_pure _
  | succ n ih => exact h.bind fun _ => ih

end FailsBy

section reader

/-- An action on a reader fails at the end of the input only. -/
abbrev Ends {α : Type} (action : Stateful Reader α) : Prop := FailsBy (·.isEndOfInput = true) action

theorem ends_takeBits {count : Nat} (hcount : 1 ≤ count ∧ count ≤ 8) (lenient : Bool) :
    Ends (Reader.takeBits count lenient) := by
  intro r fault r' heq
  rw [Reader.takeBits, if_neg (by omega)] at heq
  split at heq
  · cases heq
  split at heq
  · cases heq
  split at heq <;> cases heq
  rfl

theorem ends_readByte : Ends (BitSource.readByte (σ := Reader)) := by
  intro r fault r' heq
  change Reader.readByte r = _ at heq
  rw [Reader.readByte] at heq
  split at heq
  · split at heq <;> cases heq
    rfl
  · exact (ends_takeBits (by decide) false).bind (fun _ => .of_pure _) r fault r' heq

theorem ends_skipBytes (count : Nat) : Ends (BitSource.skipBytes (σ := Reader) count) := by
  intro r fault r' heq
  change Reader.skipBytes count r = _ at heq
  rw [Reader.skipBytes] at heq
  split at heq
  · split at heq <;> cases heq
    rfl
  · exact ends_readByte.repeatedly count r fault r' heq

theorem ends_alignTo (size : Nat) : Ends (BitSource.alignTo (σ := Reader) size) := by
  refine (FailsBy.of_modify _).bind fun _ => ?_
  split
  · exact FailsBy.of_get.bind fun _ => ends_readByte.repeatedly _
  · exact .of_pure _

theorem ends_readBytes (count : Nat) : Ends (BitSource.readBytes (σ := Reader) count) := by
  induction count with
  | zero => exact .of_pure _
  | succ count ih =>
    rw [BitSource.readBytes_succ]
    exact ends_readByte.bind fun _ => ih.bind fun _ => .of_pure _

theorem ends_readWhole (order : ByteOrder) (type : WholeType) : Ends (readWhole (σ := Reader) order type) := by
  have hnumber : ∀ count, Ends (BitSource.readNumber (σ := Reader) count order) :=
    fun count => (ends_readBytes count).bind fun _ => .of_pure _
  cases type with
  | bool | byte => exact ends_readByte.bind fun _ => .of_pure _
  | ubyte => exact ends_readByte
  | ushort => exact (hnumber 2).bind fun _ => .of_pure _
  | short => exact ((hnumber 2).bind fun _ => .of_pure _).bind fun _ => .of_pure _
  | int => exact ((hnumber 4).bind fun _ => .of_pure _).bind fun _ => .of_pure _
  | long => exact ((hnumber 8).bind fun _ => .of_pure _).bind fun _ => .of_pure _

/-- The widths of bit fields as natural numbers. -/
theorem toNat_of_width {n : Int32} (h : 1 ≤ n ∧ n ≤ 8) : 1 ≤ n.toInt.toNat ∧ n.toInt.toNat ≤ 8 := by
  have hlow := Int32.le_iff_toInt_le.mp h.1
  have hhigh := Int32.le_iff_toInt_le.mp h.2
  change 1 ≤ n.toInt at hlow
  change n.toInt ≤ 8 at hhigh
  omega

theorem ends_readBits {width : Nat} (hwidth : 1 ≤ width ∧ width ≤ 8) (count : ElementCount) :
    Ends (match count with
      | .untilEnd => do return (← BitSource.readBitsUpTo (σ := Reader) width).1
      | _ => BitSource.readBits width) := by
  cases count with
  | one | exactly n => exact (ends_takeBits hwidth false).bind fun _ => .of_pure _
  | untilEnd => exact (ends_takeBits hwidth true).bind fun _ => .of_pure _

end reader

section arrays
variable {σ α : Type} {P : Fault → Prop} {options : ReadOptions} {read : Stateful σ α}

theorem FailsBy.readExactly (h : FailsBy P read) (n : Nat) (acc : List α) :
    FailsBy P (LayoutScript.readExactly options read n acc) := by
  induction n generalizing acc with
  | zero => exact .of_pure _
  | succ n ih =>
    intro s fault s' heq
    rw [LayoutScript.readExactly] at heq
    rcases hread : read s with ⟨fault' | v, s₁⟩
    · simp only [hread] at heq
      split at heq <;> cases heq
      exact h s fault s' hread
    · simp only [hread] at heq
      exact ih (v :: acc) s₁ fault s' heq

variable [BitSource σ]

theorem FailsBy.readUntilEnd (h : FailsBy P read) (hlarge : ∀ n, P (.input (.arrayTooLarge n options.maxElements)))
    (size : Nat) (acc : List α) : FailsBy P (LayoutScript.readUntilEnd options read size acc) := by
  intro s fault s' heq
  induction hn : BitSource.left s using Nat.strongRecOn generalizing size acc s with
  | _ n ih =>
    rw [LayoutScript.readUntilEnd] at heq
    split at heq
    · cases heq
    split at heq
    · cases heq
      exact hlarge _
    rcases hread : read s with ⟨fault' | v, s₁⟩
    · simp only [hread] at heq
      split at heq <;> cases heq
      exact h s fault s' hread
    · simp only [hread] at heq
      split at heq
      · rename_i hless
        exact ih _ (hn ▸ hless) _ _ s₁ heq rfl
      · cases heq

/-- A scalar or an array fails where an element does, or because it is too large. -/
theorem FailsBy.readScalars {type : ScalarType} {read : Stateful σ type.Carrier} (h : FailsBy P read)
    (hlarge : ∀ n, P (.input (.arrayTooLarge n options.maxElements))) (count : ElementCount) :
    FailsBy P (LayoutScript.readScalars options type count read) := by
  cases count with
  | one => exact h.bind fun _ => .of_pure _
  | exactly n => exact (h.readExactly n []).bind fun _ => .of_pure _
  | untilEnd => exact (h.readUntilEnd hlarge 0 []).bind fun _ => .of_pure _

end arrays
end LayoutScript
