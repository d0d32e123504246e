import LayoutScript.Proofs.BitStreams
import LayoutScript.Proofs.ReadScript
import LayoutScript.Proofs.ReadSteps

/-! # Writing back what was read

The scalars of a record, written one after the other with the widths and byte orders of their
declarations, give back the bits that the record was read from. The last value of an array of
bits to the end of the input may have fewer bits than its type says.
-/
namespace LayoutScript

/-- Declarations that are read bit by bit and lose nothing. -/
def Kind.isCopied : Kind → Bool
  | .bit | .opening | .closing => true
  | .whole type => type ≠ .bool
  | _ => false

namespace Writer

def writeScalar (w : Writer) (order : ByteOrder) : (t : ScalarType) → t.Carrier → Writer
  | .bit width, v => w.writeBits v width
  | .whole t, v => w.writeNumber t.size order (t.pattern v)

/-- Writes an array that goes on to the end of `total` bits. -/
def writeToEnd (total : Nat) (w : Writer) (order : ByteOrder) : (t : ScalarType) → List t.Carrier → Writer
  | .bit width, vs => vs.foldl (fun w v => w.writeBits v (min width (total - w.bits.length))) w
  | .whole t, vs => vs.foldl (fun w v => w.writeScalar order (.whole t) v) w

end Writer

/-- Writes the value of a declaration that is no structure. -/
def Head.write (total : Nat) (h : Head) (w : Writer) : Value → Writer
  | .scalar t v => w.writeScalar h.order t v
  | .array t vs =>
    if h.extent = .untilEnd then w.writeToEnd total h.order t vs
    else vs.foldl (fun w v => w.writeScalar h.order t v) w
  | .text _ | .record _ | .records _ => w

/-- Writes a structure or the structures of an array by what writes the fields of one. -/
def Value.writeStructures (write : Writer → List Field → Writer) (w : Writer) : Value → Writer
  | .record item => write w item.fields
  | .records items => items.foldl (fun w item => write w item.fields) w
  | .scalar .. | .array .. | .text _ => w

namespace Declaration

mutual

/-- Writes the value of a declaration. -/
def write (total : Nat) (w : Writer) : Declaration → Value → Writer
  | .single h, v => h.write total w v
  | .nested _ members, v => v.writeStructures (fun w fields => writeAll total w members fields) w

/-- Writes fields, each as its declaration says. -/
def writeAll (total : Nat) (w : Writer) : List Declaration → List Field → Writer
  | d :: ds, f :: fields => writeAll total (write total w d f.value) ds fields
  | _, _ => w

end

end Declaration

/-! ## What one reading and its writing keep -/

/-- A writer has written what a reader has read of an input. -/
structure Mirrors (input : List Bool) (w : Writer) (r : Reader) : Prop where
  order : w.order = r.order
  bits : w.bits ++ r.bits = input
  pending_lt : w.pending.length < 8
  size : input.length = 8 * r.data.size
  sound : r.Sound

namespace Mirrors
variable {input front : List Bool} {w w' : Writer} {r r' : Reader}

theorem extend (h : Mirrors input w r) (hread : r.Gives front r') (hwrite : w.Adds front w') : Mirrors input w' r' where
  order := by rw [hwrite.order, hread.order, h.order]
  bits := by rw [hwrite.bits, List.append_assoc, ← hread.bits, h.bits]
  pending_lt := hwrite.pending_lt h.pending_lt
  size := by rw [hread.data, h.size]
  sound := hread.sound h.sound

theorem left (h : Mirrors input w r) : r.left = input.length - w.bits.length := by
  have hlength := congrArg List.length h.bits
  rw [List.length_append, r.length_bits] at hlength
  omega

theorem consumed (h : Mirrors input w r) : w.bits.length = r.consumed := by
  have hlength := congrArg List.length h.bits
  have hall := Reader.consumed_add_left h.sound
  have hsize := h.size
  rw [List.length_append, r.length_bits] at hlength
  omega

/-- What has been written are the bytes in which the bits that were read lie. -/
theorem toBytes {bytes : List UInt8} (h : Mirrors (bytes.flatMap r.order.ofByte) w r) :
    w.toBytes = r.order.firstBits r.consumed bytes := by
  have hfront : w.bits <+: bytes.flatMap w.order.ofByte := ⟨r.bits, by rw [h.bits, h.order]⟩
  rw [Writer.toBytes_eq_firstBits h.pending_lt hfront, h.order, h.consumed]

end Mirrors

/-- Where an action reads something of an input, `write` writes it. -/
def Mirrored {σ α : Type} (input : List Bool) (source : σ → Reader) (action : Stateful σ α)
    (write : Writer → α → Writer) : Prop :=
  ∀ s a s', action s = (.ok a, s') → (source s).Passes (source s') ∧
    ∀ w, Mirrors input w (source s) → Mirrors input (write w a) (source s')

section scalars
variable {input : List Bool}

theorem mirrored_readBits (width : Nat) :
    Mirrored (σ := Reader) input id (BitSource.readBits width) fun w v => w.writeBits v width := by
  intro r v r' h
  obtain ⟨hgives, hpos, hle⟩ := Reader.gives_readBits h
  refine ⟨⟨_, hgives⟩, fun w hw => ?_⟩
  have hadds := w.adds_writeBits v hpos hle
  rw [hw.order] at hadds
  exact hw.extend hgives hadds

theorem mirrored_readBitsUpTo (width : Nat) :
    Mirrored (σ := Reader) input id (do return (← BitSource.readBitsUpTo width).1) fun w v =>
      w.writeBits v (min width (input.length - w.bits.length)) := by
  intro r v r' h
  obtain ⟨⟨v', k⟩, r₁, htake, h⟩ := Stateful.of_bind_ok h
  cases h
  obtain ⟨hgives, hpos, hle, hk, -⟩ := Reader.gives_takeBits htake
  refine ⟨⟨_, hgives⟩, fun w hw => ?_⟩
  have hadds := w.adds_writeBits v' hpos hle
  rw [hw.order] at hadds
  have hleft : min width (input.length - w.bits.length) = k := by rw [← hw.left, hk, id]
  dsimp only
  rw [hleft]
  exact hw.extend hgives hadds

theorem mirrored_readWhole (order : ByteOrder) {t : WholeType} (ht : t ≠ .bool) :
    Mirrored input id (readWhole order t) fun w v => w.writeScalar order (.whole t) v := by
  intro r v r' h
  have hgives := Reader.gives_readWhole ht h
  refine ⟨⟨_, hgives⟩, fun w hw => ?_⟩
  have hadds := w.adds_writeNumber t.size order (t.pattern v)
  rw [hw.order] at hadds
  exact hw.extend hgives hadds

variable {options : ReadOptions} {α : Type} {read : Stateful Reader α} {write : Writer → α → Writer}

theorem Mirrored.readExactly (h : Mirrored input id read write) (hstrict : options.tolerant = false) {n : Nat}
    {acc vs : List α} {cut : Bool} {r r' : Reader} (hok : readExactly options read n acc r = (.ok (vs, cut), r')) :
    cut = false ∧ ∃ new, vs = acc.reverse ++ new ∧ r.Passes r' ∧
      ∀ w, Mirrors input w r → Mirrors input (new.foldl write w) r' := by
  induction n generalizing acc r with
  | zero =>
    cases hok
    exact ⟨rfl, [], (List.append_nil _).symm, .refl _, fun w hw => hw⟩
  | succ n ih =>
    rw [LayoutScript.readExactly] at hok
    rcases hread : read r with ⟨fault | v, r₁⟩
    · simp only [hread, hstrict, Bool.and_false, Bool.false_eq_true, if_false] at hok
      cases hok
    · simp only [hread] at hok
      obtain ⟨hpasses, hwrites⟩ := h r v r₁ hread
      obtain ⟨hcut, new, hnew, hpasses', hwrites'⟩ := ih hok
      refine ⟨hcut, v :: new, ?_, hpasses.trans hpasses', fun w hw => hwrites' _ (hwrites w hw)⟩
      rw [hnew, List.reverse_cons, List.append_assoc, List.singleton_append]

theorem Mirrored.readUntilEnd (h : Mirrored input id read write) (hstrict : options.tolerant = false) {size : Nat}
    {acc vs : List α} {cut : Bool} {r r' : Reader} (hok : readUntilEnd options read size acc r = (.ok (vs, cut), r')) :
    cut = false ∧ ∃ new, vs = acc.reverse ++ new ∧ r.Passes r' ∧
      ∀ w, Mirrors input w r → Mirrors input (new.foldl write w) r' := by
  induction hn : BitSource.left r using Nat.strongRecOn generalizing size acc r with
  | _ n ih =>
    rw [LayoutScript.readUntilEnd] at hok
    split at hok
    · cases hok
      exact ⟨rfl, [], (List.append_nil _).symm, .refl _, fun w hw => hw⟩
    split at hok
    · cases hok
    rcases hread : read r with ⟨fault | v, r₁⟩
    · simp only [hread, hstrict, Bool.and_false, Bool.false_eq_true, if_false] at hok
      cases hok
    · simp only [hread] at hok
      obtain ⟨hpasses, hwrites⟩ := h r v r₁ hread
      split at hok
      · rename_i hless
        obtain ⟨hcut, new, hnew, hpasses', hwrites'⟩ := ih _ (hn ▸ hless) hok rfl
        refine ⟨hcut, v :: new, ?_, hpasses.trans hpasses', fun w hw => hwrites' _ (hwrites w hw)⟩
        rw [hnew, List.reverse_cons, List.append_assoc, List.singleton_append]
      · cases hok
        exact ⟨rfl, [v], List.reverse_cons, hpasses, hwrites⟩

theorem Mirrored.readOne {type : ScalarType} {read : Stateful Reader type.Carrier} {write : Writer → type.Carrier → Writer}
    (h : Mirrored input id read write) {reply : Reply} {r r' : Reader}
    (hok : readScalars options type .one read r = (.ok reply, r')) :
    ∃ v, reply = .value (.scalar type v) ∧ r.Passes r' ∧ ∀ w, Mirrors input w r → Mirrors input (write w v) r' := by
  obtain ⟨v, r₁, hread, hok⟩ := Stateful.of_bind_ok hok
  cases hok
  obtain ⟨hpasses, hwrites⟩ := h r v r' hread
  exact ⟨v, rfl, hpasses, hwrites⟩

theorem Mirrored.readMany {type : ScalarType} {read : Stateful Reader type.Carrier} {write : Writer → type.Carrier → Writer}
    (h : Mirrored input id read write) (hstrict : options.tolerant = false) {count : ElementCount} (hcount : count ≠ .one)
    {reply : Reply} {r r' : Reader} (hok : readScalars options type count read r = (.ok reply, r')) :
    ∃ vs, reply = .value (.array type vs) ∧ r.Passes r' ∧
      ∀ w, Mirrors input w r → Mirrors input (vs.foldl write w) r' := by
  cases count with
  | one => exact absurd rfl hcount
  | exactly n =>
    obtain ⟨⟨vs, cut⟩, r₁, hread, hok⟩ := Stateful.of_bind_ok hok
    obtain ⟨rfl, new, rfl, hpasses, hwrites⟩ := h.readExactly hstrict hread
    cases hok
    exact ⟨vs, rfl, hpasses, hwrites⟩
  | untilEnd =>
    obtain ⟨⟨vs, cut⟩, r₁, hread, hok⟩ := Stateful.of_bind_ok hok
    obtain ⟨rfl, new, rfl, hpasses, hwrites⟩ := h.readUntilEnd hstrict hread
    cases hok
    exact ⟨vs, rfl, hpasses, hwrites⟩

end scalars

/-- What is read for a declaration that is no structure is mirrored by writing it. -/
theorem Head.mirrors_readValue (input : List Bool) {s : Setting Reader} (hstrict : s.options.tolerant = false) {h : Head}
    (hkind : h.kind.isCopied = true) (hsingle : h.kind ≠ .opening ∧ h.kind ≠ .closing) {q : Request} (hq : h.Requests q)
    {readings : Readings} {reply : Reply} {r r' : Reader}
    (hok : h.readValue s q readings r = (.ok reply, r')) :
    ∃ value, reply = .value value ∧ r.Passes r' ∧
      ∀ w, Mirrors input w r → Mirrors input (h.write input.length w value) r' := by
  rw [readValue.eq_def] at hok
  cases hk : h.kind with
  | align | skip | restart | var | custom =>
    rw [hk] at hkind
    cases hkind
  | opening => exact absurd hk hsingle.1
  | closing => exact absurd hk hsingle.2
  | bit =>
    simp only [hk] at hok
    split at hok
    · cases hcount : q.count with
      | one =>
        simp only [hcount] at hok
        obtain ⟨v, rfl, hpasses, hwrites⟩ := (mirrored_readBits _).readOne hok
        exact ⟨_, rfl, hpasses, hwrites⟩
      | exactly n =>
        have hextent : h.extent ≠ .untilEnd := by
          intro hend
          rw [hq.untilEnd.mpr hend] at hcount
          cases hcount
        simp only [hcount] at hok
        obtain ⟨vs, rfl, hpasses, hwrites⟩ := (mirrored_readBits _).readMany hstrict (by simp) hok
        refine ⟨_, rfl, hpasses, fun w hw => ?_⟩
        rw [write, if_neg hextent]
        exact hwrites w hw
      | untilEnd =>
        simp only [hcount] at hok
        obtain ⟨vs, rfl, hpasses, hwrites⟩ := (mirrored_readBitsUpTo _).readMany hstrict (by simp) hok
        refine ⟨_, rfl, hpasses, fun w hw => ?_⟩
        rw [write, if_pos (hq.untilEnd.mp hcount)]
        exact hwrites w hw
    · cases hok
  | whole t =>
    have ht : t ≠ .bool := by
      rw [hk] at hkind
      exact of_decide_eq_true hkind
    have hread : Mirrored input id (readWhole h.order t) _ := mirrored_readWhole h.order ht
    simp only [hk, hq.order] at hok
    by_cases hone : q.count = .one
    · rw [hone] at hok
      obtain ⟨v, rfl, hpasses, hwrites⟩ := hread.readOne hok
      exact ⟨_, rfl, hpasses, hwrites⟩
    · obtain ⟨vs, rfl, hpasses, hwrites⟩ := hread.readMany hstrict hone hok
      refine ⟨_, rfl, hpasses, fun w hw => ?_⟩
      rw [write, Writer.writeToEnd, ite_self]
      exact hwrites w hw

/-- Reading fields goes on to the end, and writing them mirrors it. -/
def MirrorsBody (input : List Bool) (body : Stateful (Run Reader) Yield) (write : Writer → List Field → Writer) : Prop :=
  ∀ run y run', body run = (.ok y, run') → y.halted = false ∧ run.source.Passes run'.source ∧
    ∀ w, Mirrors input w run.source → Mirrors input (write w y.fields) run'.source

namespace Declaration
variable {input : List Bool}

section structures
variable {body : Stateful (Run Reader) Yield} {write : Writer → List Field → Writer}
  {run run' : Run Reader} {items : List Record} {halted : Bool}

theorem mirrors_readTimes (hbody : MirrorsBody input body write) {n : Nat}
    (hok : readTimes body n run = (.ok (items, halted), run')) :
    halted = false ∧ run.source.Passes run'.source ∧ ∀ w, Mirrors input w run.source →
      Mirrors input (items.foldl (fun w item => write w item.fields) w) run'.source := by
  induction n generalizing run items with
  | zero =>
    cases hok
    exact ⟨rfl, .refl _, fun w hw => hw⟩
  | succ n ih =>
    obtain ⟨y, run₁, hy, hcases⟩ := readTimes_succ_ok hok
    obtain ⟨hgoes, hpasses, hwrites⟩ := hbody run y run₁ hy
    rcases hcases with ⟨hhalts, -⟩ | ⟨-, rest, hrest, rfl⟩
    · rw [hgoes] at hhalts
      cases hhalts
    · obtain ⟨hhalted, hpasses', hwrites'⟩ := ih hrest
      exact ⟨hhalted, hpasses.trans hpasses', fun w hw => hwrites' _ (hwrites w hw)⟩

/-- An element that takes no input is not written, and the bits before and behind it are the same. -/
theorem mirrors_readWhile (hbody : MirrorsBody input body write) {options : ReadOptions} {size : Nat}
    (hok : readWhile options body size run = (.ok (items, halted), run')) :
    halted = false ∧ run.source.Passes run'.source ∧ ∀ w, Mirrors input w run.source →
      Mirrors input (items.foldl (fun w item => write w item.fields) w) run'.source := by
  refine readWhile_induction (P := fun _ run items halted run' =>
    halted = false ∧ run.source.Passes run'.source ∧ ∀ w, Mirrors input w run.source →
      Mirrors input (items.foldl (fun w item => write w item.fields) w) run'.source) ?_ ?_ ?_ ?_ hok
  · exact fun _ run _ => ⟨rfl, .refl _, fun w hw => hw⟩
  · intro _ run fields run' hy
    cases (hbody run _ run' hy).1
  · intro _ run fields run' hy hidle
    obtain ⟨-, ⟨front, hgives⟩, -⟩ := hbody run _ run' hy
    obtain rfl := hgives.eq_nil (Nat.le_of_not_lt hidle)
    exact ⟨rfl, ⟨[], hgives⟩, fun w hw => hw.extend hgives (.refl w)⟩
  · rintro _ run fields next items halted run' - hy - ⟨hhalted, hpasses', hwrites'⟩
    obtain ⟨-, hpasses, hwrites⟩ := hbody run _ next hy
    exact ⟨hhalted, hpasses.trans hpasses', fun w hw => hwrites' _ (hwrites w hw)⟩

theorem mirrors_readElements (hbody : MirrorsBody input body write) {options : ReadOptions} {count : ElementCount}
    {value : Value} (hok : readElements options count body run = (.ok (value, halted), run')) :
    halted = false ∧ run.source.Passes run'.source ∧
      ∀ w, Mirrors input w run.source → Mirrors input (value.writeStructures write w) run'.source := by
  cases count with
  | one =>
    obtain ⟨y, run₁, hy, hok⟩ := Stateful.of_bind_ok hok
    cases hok
    exact hbody run y run' hy
  | exactly n =>
    obtain ⟨⟨items, _⟩, run₁, hitems, hok⟩ := Stateful.of_bind_ok hok
    cases hok
    exact mirrors_readTimes hbody hitems
  | untilEnd =>
    obtain ⟨⟨items, _⟩, run₁, hitems, hok⟩ := Stateful.of_bind_ok hok
    cases hok
    exact mirrors_readWhile hbody hitems

end structures

theorem mirrors_readSingle {s : Setting Reader} (hstrict : s.options.tolerant = false) {h : Head}
    (hkind : h.kind.isCopied = true) (hsingle : h.kind ≠ .opening ∧ h.kind ≠ .closing) {q : Request} (hq : h.Requests q)
    {run run' : Run Reader} {y : Yield} (hok : h.readSingle s q run = (.ok y, run')) :
    ∃ value, y = ⟨[⟨h.info, value⟩], false⟩ ∧ run.source.Passes run'.source ∧
      ∀ w, Mirrors input w run.source → Mirrors input (h.write input.length w value) run'.source := by
  rw [Head.readSingle_eq] at hok
  rcases hv : h.readValue s q run.readings run.source with ⟨fault | reply, r⟩
  · simp only [hv, hstrict, Bool.and_false, Bool.false_eq_true, if_false] at hok
    cases hok
  obtain ⟨value, rfl, hpasses, hwrites⟩ := Head.mirrors_readValue input hstrict hkind hsingle hq hv
  rw [hv] at hok
  cases hok
  rw [Setting.keepReading_source]
  exact ⟨value, rfl, hpasses, hwrites⟩

mutual

theorem mirrors_read {s : Setting Reader} (hstrict : s.options.tolerant = false) :
    (d : Declaration) → d.Formed (·.kind.isCopied = true) → ∀ (depth : Nat) (run run' : Run Reader) (y : Yield),
      d.read s depth run = (.ok y, run') → ∃ f, y = ⟨[f], false⟩ ∧ run.source.Passes run'.source ∧
        ∀ w, Mirrors input w run.source → Mirrors input (write input.length w d f.value) run'.source
  | .single h, hf, depth, run, run', y, hok => by
    obtain ⟨q, hq, hok⟩ := read_single_ok hstrict hok
    obtain ⟨value, rfl, hpasses, hwrites⟩ := mirrors_readSingle hstrict hf.1 hf.2 (Head.request_ok hq) hok
    refine ⟨_, rfl, hpasses, fun w hw => ?_⟩
    rw [write]
    exact hwrites w hw
  | .nested h members, hf, depth, run, run', y, hok => by
    obtain ⟨q, value, halted, -, -, hx, rfl⟩ := read_nested_ok hstrict hok
    obtain ⟨rfl, hpasses, hwrites⟩ := mirrors_readElements (mirrors_readAll hstrict members hf.2.2 (depth + 1)) hx
    refine ⟨_, rfl, hpasses, fun w hw => ?_⟩
    rw [write]
    exact hwrites w hw

theorem mirrors_readAll {s : Setting Reader} (hstrict : s.options.tolerant = false) :
    (ds : List Declaration) → FormedAll (·.kind.isCopied = true) ds → ∀ depth : Nat,
      MirrorsBody input (readAll s depth ds) fun w fields => writeAll input.length w ds fields
  | [], _, _, run, y, run', hok => by
    cases hok
    exact ⟨rfl, .refl _, fun w hw => hw⟩
  | d :: ds, hf, depth, run, y, run', hok => by
    obtain ⟨first, run₁, hd, hcases⟩ := readAll_cons_ok hok
    obtain ⟨f, rfl, hpasses, hwrites⟩ := mirrors_read hstrict d hf.1 depth run run₁ first hd
    rcases hcases with ⟨hhalts, -⟩ | ⟨-, rest, hrest, rfl⟩
    · cases hhalts
    · obtain ⟨hhalted, hpasses', hwrites'⟩ := mirrors_readAll hstrict ds hf.2 depth run₁ rest run' hrest
      refine ⟨hhalted, hpasses.trans hpasses', fun w hw => ?_⟩
      change Mirrors input (writeAll input.length w (d :: ds) (f :: rest.fields)) run'.source
      rw [writeAll]
      exact hwrites' _ (hwrites w hw)

end

end Declaration

/-- What a layout of declarations reads without loss is written back as the bytes in which it lies. -/
theorem Layout.IsOf.toBytes_writeAll {layout : Layout} {ds : List Declaration} (h : layout.IsOf ds)
    (hkinds : ∀ lines, layout.lines = .ok lines → ∀ line ∈ lines, line.kind.isCopied = true)
    {options : ReadOptions} {collaborators : Collaborators Reader} {bytes : List UInt8} {record : Record} {run : Run Reader}
    (hstrict : options.tolerant = false) (hok : layout.readBytes bytes options collaborators = (.ok record, run)) :
    run.source.consumed ≤ 8 * bytes.length ∧
      (Declaration.writeAll (8 * bytes.length) { order := options.bitOrder } ds record.fields).toBytes =
        options.bitOrder.firstBits run.source.consumed bytes := by
  have hf : Declaration.FormedAll (·.kind.isCopied = true) ds := by
    apply Declaration.FormedAll.of_heads ds h.formed
    intro head hm
    have hkind := hkinds _ h.lines _ (Declaration.line_memAll ds hm)
    rwa [Head.line_kind] at hkind
  rw [readBytes, IsOf.read_eq _ h] at hok
  obtain ⟨y, run₁, hy, hok⟩ := Stateful.of_bind_ok hok
  cases hok
  have hbody : MirrorsBody (bytes.flatMap options.bitOrder.ofByte) (Declaration.readAll ⟨layout, options, collaborators⟩ 0 ds) _ :=
    Declaration.mirrors_readAll hstrict ds hf 0
  obtain ⟨-, ⟨front, hgives⟩, hwrites⟩ := hbody _ y run hy
  have hlength : (bytes.flatMap options.bitOrder.ofByte).length = 8 * bytes.length :=
    options.bitOrder.length_flatMap_ofByte bytes
  have hstart : Mirrors (bytes.flatMap options.bitOrder.ofByte) { order := options.bitOrder }
      (.ofBytes bytes options.bitOrder) := ⟨rfl, rfl, Nat.zero_lt_succ 7, hlength, Reader.sound_ofBytes bytes _⟩
  have hend := hwrites _ hstart
  have horder : run.source.order = options.bitOrder := hgives.order
  have hall := Reader.consumed_add_left hend.sound
  have hsize := hend.size
  rw [hlength, ← horder] at hend
  have hbytes := hend.toBytes
  rw [horder] at hbytes
  exact ⟨by omega, hbytes⟩

/-- What is read without loss by a compiled script is written back as the bytes that it was read
from, up to the last bit. -/
theorem Layout.toBytes_read {custom : Option CustomTypes} {script : String} {layout : Layout}
    (h : compileWith custom script = .ok layout) (hcustom : layout.customTypes = [])
    (hkinds : ∀ lines, layout.lines = .ok lines → ∀ line ∈ lines, line.kind.isCopied = true) :
    ∃ ds, Declaration.ofScript custom script = some ds ∧
      ∀ (options : ReadOptions) (collaborators : Collaborators Reader) (bytes : List UInt8) (record : Record)
        (run : Run Reader), options.tolerant = false →
        layout.readBytes bytes options collaborators = (.ok record, run) →
          (options.bitOrder.firstBits run.source.consumed bytes).length = (run.source.consumed + 7) / 8 ∧
          (Declaration.writeAll (8 * bytes.length) { order := options.bitOrder } ds record.fields).toBytes =
            options.bitOrder.firstBits run.source.consumed bytes := by
  obtain ⟨ts, d, ds, -, hds, htraced, hopened, rfl⟩ := compileWith_traced h
  have hof := htraced.isOf hopened (by rw [show d.customTypes = [] from hcustom]; exact Nat.zero_le _) script
  refine ⟨ds, hds, ?_⟩
  intro options collaborators bytes record run hstrict hok
  obtain ⟨hle, hbytes⟩ := hof.toBytes_writeAll hkinds hstrict hok
  exact ⟨options.bitOrder.length_firstBits hle, hbytes⟩

/-- A record in which numbers begin inside bytes, read up to the middle of a byte. -/
theorem Layout.toBytes_shifted_record :
    let script := "bit:3 n; <ushort v; rec[n] \x7b bit:2 a; byte b; \x7d"
    let bytes : List UInt8 := [0x31, 0x5a, 0xff, 0x80, 0x7e, 0x99]
    let options : ReadOptions := .msb0
    ∃ layout ds record run, compileWith none script = .ok layout ∧ Declaration.ofScript none script = some ds ∧
      layout.readBytes bytes options {} = (.ok record, run) ∧ run.source.consumed = 29 ∧
      (Declaration.writeAll (8 * bytes.length) { order := options.bitOrder } ds record.fields).toBytes =
        [0x31, 0x5a, 0xff, 0x80] := by
  intro script bytes options
  have hcompiles : (compileWith none script).toOption.any (fun layout => layout.customTypes.isEmpty &&
      layout.lines.toOption.any (·.all (·.kind.isCopied)) &&
      (layout.readBytes bytes options {}).1.toOption.isSome &&
      (layout.readBytes bytes options {}).2.source.consumed = 29) = true := by decide +kernel
  obtain ⟨layout, hlayout, hchecks⟩ := of_any_ok hcompiles
  simp only [Bool.and_eq_true] at hchecks
  obtain ⟨⟨⟨hcustom, hlines⟩, hread⟩, hconsumed⟩ := hchecks
  have hkinds : ∀ lines, layout.lines = .ok lines → ∀ line ∈ lines, line.kind.isCopied = true :=
    forall_mem_of_any_all hlines
  rcases hrun : layout.readBytes bytes options {} with ⟨fault | record, run⟩
  · rw [hrun] at hread
    cases hread
  rw [hrun] at hconsumed
  have hconsumed : run.source.consumed = 29 := of_decide_eq_true hconsumed
  obtain ⟨ds, hds, hwrites⟩ := toBytes_read hlayout (List.isEmpty_iff.mp hcustom) hkinds
  obtain ⟨-, hbytes⟩ := hwrites options {} bytes record run rfl hrun
  refine ⟨layout, ds, record, run, hlayout, hds, hrun, hconsumed, ?_⟩
  rw [hbytes, hconsumed]
  decide

end LayoutScript
