import LayoutScript.Apply.Body
import LayoutScript.Proofs.BitStreams
import LayoutScript.Proofs.ReadSteps

/-! # Reading goes forward

Whatever is done to a reader, be it that bits are read, that they are dropped or that the counter is
restarted, and also where it fails, bits are taken from the front of those that are left. So the bits
that were read or dropped grow as those that are left get fewer.
-/
namespace LayoutScript

namespace Reader
variable {r r' : Reader}

theorem Passes.left_le (h : r.Passes r') : r'.left ≤ r.left := by
  obtain ⟨front, hgives⟩ := h
  have hlength := congrArg List.length hgives.bits
  simp only [List.length_append, length_bits] at hlength
  omega

theorem Passes.sound (h : r.Passes r') (hsound : r.Sound) : r'.Sound := by
  obtain ⟨front, hgives⟩ := h
  exact hgives.sound hsound

theorem Passes.size (h : r.Passes r') : r'.data.size = r.data.size := by
  obtain ⟨front, hgives⟩ := h
  rw [hgives.data]

/-- As many bits are consumed as the rest gets shorter. -/
theorem Passes.consumed (h : r.Passes r') (hsound : r.Sound) : r'.consumed + r'.left = r.consumed + r.left := by
  rw [consumed_add_left hsound, consumed_add_left (h.sound hsound), h.size]

theorem passes_align (r : Reader) : r.Passes r.align := ⟨r.pending, rfl, rfl, rfl, fun h => ⟨h.pos_le, Nat.zero_le _⟩⟩

theorem passes_restart (r : Reader) : r.Passes r.restart :=
  ⟨r.pending, rfl, rfl, rfl, fun h => ⟨h.pos_le, Nat.zero_le _⟩⟩

/-- Whole bytes are dropped where no bits are pending. -/
theorem passes_drop (hpending : r.pending = []) {count : Nat} (hcount : count ≤ r.remaining) :
    r.Passes { r with pos := r.pos + count } := by
  refine ⟨((r.data.toList.drop r.pos).take count).flatMap r.order.ofByte, ?_, rfl, rfl, fun h => ⟨?_, ?_⟩⟩
  · have hsplit := List.take_append_drop count (r.data.toList.drop r.pos)
    rw [List.drop_drop] at hsplit
    simp only [bits, hpending, List.nil_append, ← List.flatMap_append, hsplit]
  · have hpos := h.pos_le
    rw [remaining] at hcount
    exact show r.pos + count ≤ r.data.size by omega
  · simp only [hpending, List.length_nil, Nat.zero_le]

end Reader

/-- Reading takes bits from the front of those that are left, in whatever way it ends. -/
def Forward {α : Type} (x : Stateful Reader α) : Prop := ∀ r : Reader, r.Passes (x r).2

namespace Forward
variable {α β : Type} {x : Stateful Reader α}

theorem of_pure (a : α) : Forward (pure a : Stateful Reader α) := Reader.Passes.refl

theorem of_throw (fault : Fault) : Forward (throw fault : Stateful Reader α) := Reader.Passes.refl

theorem of_get : Forward (get : Stateful Reader Reader) := Reader.Passes.refl

theorem of_modify {f : Reader → Reader} (h : ∀ r : Reader, r.Passes (f r)) : Forward (modify f : Stateful Reader PUnit) := h

theorem bind {f : α → Stateful Reader β} (hx : Forward x) (hf : ∀ a, Forward (f a)) : Forward (x >>= f) := by
  intro r
  have hr := hx r
  rw [Stateful.bind_apply]
  rcases hxr : x r with ⟨fault | a, r'⟩
  · rw [hxr] at hr
    exact hr
  · rw [hxr] at hr
    exact hr.trans (hf a r')

theorem repeatedly (h : Forward x) (n : Nat) : Forward (x.repeatedly n) := by
  induction n with
  | zero => exact of_pure ()
  | succ n ih => exact h.bind fun _ => ih

theorem takeBits (count : Nat) (lenient : Bool) : Forward (Reader.takeBits count lenient) := by
  intro r
  rcases h : Reader.takeBits count lenient r with ⟨fault | ⟨v, k⟩, r'⟩
  · unfold Reader.takeBits at h
    split at h
    · cases h
      exact .refl r
    split at h
    · cases h
    split at h
    · cases h
    split at h <;> cases h
    exact r.passes_align
  · exact ⟨_, (Reader.gives_takeBits h).1⟩

theorem readBits (count : Nat) : Forward (BitSource.readBits (σ := Reader) count) :=
  (takeBits count false).bind fun _ => of_pure _

theorem readByte : Forward (BitSource.readByte (σ := Reader)) := by
  intro r
  change r.Passes (Reader.readByte r).2
  rcases h : Reader.readByte r with ⟨fault | b, r'⟩
  · unfold Reader.readByte at h
    split at h
    · split at h <;> cases h
      exact .refl r
    · have hbits := readBits 8 r
      rw [show BitSource.readBits 8 r = _ from h] at hbits
      exact hbits
  · exact ⟨_, Reader.gives_readByte h⟩

theorem skipBytes (count : Nat) : Forward (BitSource.skipBytes (σ := Reader) count) := by
  intro r
  change r.Passes (Reader.skipBytes count r).2
  unfold Reader.skipBytes
  split
  · rename_i hempty
    have hpending := List.isEmpty_iff.mp hempty
    split
    · -- The skip stops at the end of the input.
      by_cases hpos : r.pos ≤ r.data.size
      · have hdrop := Reader.passes_drop hpending (Nat.le_refl r.remaining)
        rwa [show r.pos + r.remaining = r.data.size by simp only [Reader.remaining]; omega] at hdrop
      · refine ⟨[], ?_, rfl, rfl, fun h => absurd h.pos_le hpos⟩
        rw [Reader.bits_of_none (Array.getElem?_eq_none (by omega))]
        exact (Reader.bits_of_none (r := { r with pos := r.data.size }) (Array.getElem?_eq_none (Nat.le_refl _))).symm
    · rename_i hcount
      exact Reader.passes_drop hpending (Nat.le_of_not_lt hcount)
  · exact readByte.repeatedly count r

theorem alignTo (size : Nat) : Forward (BitSource.alignTo (σ := Reader) size) := by
  refine (of_modify Reader.passes_align).bind fun _ => ?_
  split
  · exact of_get.bind fun _ => readByte.repeatedly _
  · exact of_pure ()

theorem readBytes (count : Nat) : Forward (BitSource.readBytes (σ := Reader) count) := by
  induction count with
  | zero => exact of_pure []
  | succ count ih =>
    rw [BitSource.readBytes_succ]
    exact readByte.bind fun _ => ih.bind fun _ => of_pure _

theorem readWhole (order : ByteOrder) (type : WholeType) : Forward (readWhole (σ := Reader) order type) := by
  have hnumber : ∀ count, Forward (BitSource.readNumber (σ := Reader) count order) :=
    fun count => (readBytes count).bind fun _ => of_pure _
  cases type with
  | ubyte => exact readByte
  | bool | byte => exact readByte.bind fun _ => of_pure _
  | ushort => exact (hnumber 2).bind fun _ => of_pure _
  | short => exact ((hnumber 2).bind fun _ => of_pure _).bind fun _ => of_pure _
  | int => exact ((hnumber 4).bind fun _ => of_pure _).bind fun _ => of_pure _
  | long => exact ((hnumber 8).bind fun _ => of_pure _).bind fun _ => of_pure _

section scalars
variable {options : ReadOptions} {read : Stateful Reader α}

theorem readExactly (h : Forward read) (n : Nat) (acc : List α) : Forward (readExactly options read n acc) := by
  induction n generalizing acc with
  | zero => exact of_pure _
  | succ n ih =>
    intro r
    have hr := h r
    unfold LayoutScript.readExactly
    rcases hread : read r with ⟨fault | v, r'⟩ <;> rw [hread] at hr
    · dsimp only
      split <;> exact hr
    · exact hr.trans (ih _ r')

theorem readUntilEnd (h : Forward read) (size : Nat) (acc : List α) : Forward (readUntilEnd options read size acc) := by
  intro r
  induction hn : BitSource.left r using Nat.strongRecOn generalizing size acc r with
  | _ n ih =>
    have hr := h r
    rw [LayoutScript.readUntilEnd]
    split
    · exact .refl r
    split
    · exact .refl r
    rcases hread : read r with ⟨fault | v, r'⟩ <;> rw [hread] at hr
    · dsimp only
      split <;> exact hr
    · dsimp only
      split
      · rename_i hless
        exact hr.trans (ih _ (hn ▸ hless) _ _ r' rfl)
      · exact hr

theorem readScalars {type : ScalarType} {read : Stateful Reader type.Carrier} (h : Forward read) (count : ElementCount) :
    Forward (readScalars options type count read) := by
  cases count with
  | one => exact h.bind fun _ => of_pure _
  | exactly n => exact (h.readExactly n []).bind fun _ => of_pure _
  | untilEnd => exact (h.readUntilEnd 0 []).bind fun _ => of_pure _

end scalars
end Forward

/-- The readers of values that declarations of a kind are read with go forward. The kinds that the library
reads by itself need none. -/
def Collaborators.ForwardOn (c : Collaborators Reader) : Kind → Prop
  | .var => ∀ read, c.readVar = some read → ∀ q readings, Forward (read q readings)
  | .custom => ∀ read, c.readCustom = some read → ∀ type q readings, Forward (read type q readings)
  | _ => True

namespace Setting
variable {s : Setting Reader} {line : CodeLine}

theorem forward_readField (hline : s.collaborators.ForwardOn line.kind) (r : Request) (readings : Readings) :
    Forward (s.readField line r readings) := by
  have hextra : ∀ extra, Forward (nonNegative (σ := Reader) line extra) := by
    intro extra
    unfold nonNegative
    split
    · exact .of_throw _
    · exact .of_pure _
  unfold CodeLine.kind Instruction.kind at hline
  unfold readField
  cases haction : line.instruction.action with
  | align => exact (hextra _).bind fun _ => (Forward.alignTo _).bind fun _ => .of_pure _
  | skip => exact (hextra _).bind fun _ => (Forward.skipBytes _).bind fun _ => .of_pure _
  | restart => exact (Forward.of_modify Reader.passes_restart).bind fun _ => .of_pure _
  | whole type => exact (Forward.readWhole _ type).readScalars _
  | opening | closing => exact .of_throw _
  | bit =>
    dsimp only
    split
    · refine Forward.readScalars ?_ _
      cases r.count with
      | one | exactly => exact .readBits _
      | untilEnd => exact (Forward.takeBits _ true).bind fun _ => .of_pure _
    · exact .of_throw _
  | var =>
    rw [haction] at hline
    dsimp only
    cases hread : s.collaborators.readVar with
    | none => exact .of_throw _
    | some read => exact (hline read hread r readings).bind fun _ => .of_pure _
  | custom index =>
    rw [haction] at hline
    dsimp only
    cases s.layout.customTypes[index]? with
    | none => exact .of_throw _
    | some type =>
      cases hread : s.collaborators.readCustom with
      | none => exact .of_throw _
      | some read => exact (hline read hread type r readings).bind fun _ => .of_pure _

/-- Reading a field leaves the readings alone, and the reader goes forward, also where the field is missing. -/
theorem forward_tryField (hline : s.collaborators.ForwardOn line.kind) (r : Request) (run : Run Reader) :
    run.source.Passes (s.tryField line r run).2.source := by
  have hfield := forward_readField hline r run.readings run.source
  unfold tryField onSource
  rcases h : s.readField line r run.readings run.source with ⟨fault | reply, source⟩ <;> rw [h] at hfield
  · dsimp only
    split <;> exact hfield
  · exact hfield

end Setting
end LayoutScript
