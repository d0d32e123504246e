import LayoutScript.Proofs.BitTape

/-! # What was written is read again

A reader of the bytes that a writer has finished, asked for the same things in the same order,
gives back what was written, at whatever place in a byte each of them starts. Both go over the
same bits: the tape of the finished bytes stands behind the bits that the writer had so far.
-/
namespace LayoutScript

/-- What a writer can be told to do. -/
inductive WriteRequest where
  | bits (value : UInt8) (count : Nat)
  | byte (value : UInt8)
  | uint16 (order : ByteOrder) (value : UInt16)
  | uint32 (order : ByteOrder) (value : UInt32)
  | uint64 (order : ByteOrder) (value : UInt64)
  | align

namespace WriteRequest

def write (w : Writer) : WriteRequest → Writer
  | .bits value count => w.writeBits value count
  | .byte value => w.writeByte value
  | .uint16 order value => w.writeNumber 2 order value.toNat
  | .uint32 order value => w.writeNumber 4 order value.toNat
  | .uint64 order value => w.writeNumber 8 order value.toNat
  | .align => w.align

/-- Writes one thing after the other. -/
def writeAll (w : Writer) (requests : List WriteRequest) : Writer := requests.foldl write w

def buffer (w : BufferedWriter) : WriteRequest → BufferedWriter
  | .bits value count => w.writeBits value count
  | .byte value => w.writeByte value
  | .uint16 order value => w.writeNumber 2 order value.toNat
  | .uint32 order value => w.writeNumber 4 order value.toNat
  | .uint64 order value => w.writeNumber 8 order value.toNat
  | .align => w.align

/-- Writes one thing after the other by shifting bits. -/
def bufferAll (w : BufferedWriter) (requests : List WriteRequest) : BufferedWriter := requests.foldl buffer w

/-- The request by which it is read again. -/
def mirrored : WriteRequest → ReadRequest
  | .bits _ count => .bits count
  | .byte _ => .byte
  | .uint16 order _ => .uint16 order
  | .uint32 order _ => .uint32 order
  | .uint64 order _ => .uint64 order
  | .align => .align

/-- What is to be read again. Of a value of which some bits are written these are left. -/
def written : WriteRequest → ReadAnswer
  | .bits value count => .number (value.toNat % 2 ^ count)
  | .byte value => .number value.toNat
  | .uint16 _ value => .number value.toNat
  | .uint32 _ value => .number value.toNat
  | .uint64 _ value => .number value.toNat
  | .align => .done

/-- Bits are written one to eight at a time. -/
def Valid : WriteRequest → Prop
  | .bits _ count => 1 ≤ count ∧ count ≤ 8
  | _ => True

end WriteRequest

namespace Writer

theorem length_bits (w : Writer) : w.bits.length = 8 * w.bytes.size + w.pending.length := by
  rw [bits, List.length_append, BitOrder.length_flatMap_ofByte, Array.length_toList]

/-- The byte at hand is completed with zero bits, and nothing is pending then. -/
theorem adds_align {w : Writer} (h : w.pending.length < 8) :
    Adds w (List.replicate ((8 - w.pending.length) % 8) false) w.align ∧ w.align.pending = [] := by
  rw [align]
  by_cases hempty : w.pending = []
  · rw [if_pos (List.isEmpty_iff.mpr hempty), hempty]
    exact ⟨.refl w, rfl⟩
  · have hpositive := List.length_pos_iff.mpr hempty
    have hmod : (8 - w.pending.length) % 8 = 8 - w.pending.length := Nat.mod_eq_of_lt (by omega)
    have hbyte := w.order.bits_byte (w.pending ++ List.replicate (8 - w.pending.length) false)
      (by rw [List.length_append, List.length_replicate]; omega)
    have hwhole : (w.pending ++ List.replicate (8 - w.pending.length) false).length = 8 := by
      rw [List.length_append, List.length_replicate]
      omega
    rw [hwhole, ← w.order.toByte_eq (Nat.le_of_lt h)] at hbyte
    rw [if_neg (by rwa [List.isEmpty_iff]), hmod]
    refine ⟨⟨?_, rfl, fun _ => Nat.zero_lt_succ 7⟩, rfl⟩
    change (w.bytes.push _).toList.flatMap w.order.ofByte ++ [] = _
    rw [Array.toList_push, List.flatMap_append, List.flatMap_singleton, BitOrder.ofByte, hbyte, List.append_nil, bits,
      List.append_assoc]

/-- The bits of the finished bytes are those of the writer and fewer than eight zero bits. -/
theorem flatMap_toBytes {w : Writer} (h : w.pending.length < 8) :
    w.toBytes.flatMap w.order.ofByte = w.bits ++ List.replicate ((8 - w.pending.length) % 8) false := by
  obtain ⟨hadds, hnone⟩ := adds_align h
  rw [← hadds.bits, bits, hnone, List.append_nil, hadds.order, toBytes]

end Writer

namespace WriteRequest
variable {w : Writer} {request : WriteRequest}

/-- Every request writes some bits behind those of the writer. -/
theorem adds_write (hpending : w.pending.length < 8) (hvalid : request.Valid) :
    ∃ back, w.Adds back (request.write w) := by
  cases request with
  | bits value count => exact ⟨_, w.adds_writeBits value hvalid.1 hvalid.2⟩
  | byte value => exact ⟨_, w.adds_writeByte value⟩
  | uint16 order value => exact ⟨_, w.adds_writeNumber 2 order value.toNat⟩
  | uint32 order value => exact ⟨_, w.adds_writeNumber 4 order value.toNat⟩
  | uint64 order value => exact ⟨_, w.adds_writeNumber 8 order value.toNat⟩
  | align => exact ⟨_, (Writer.adds_align hpending).1⟩

theorem adds_writeAll {requests : List WriteRequest} (hpending : w.pending.length < 8)
    (hvalid : ∀ request ∈ requests, request.Valid) : ∃ back, w.Adds back (writeAll w requests) := by
  induction requests generalizing w with
  | nil => exact ⟨[], .refl w⟩
  | cons request requests ih =>
    rw [List.forall_mem_cons] at hvalid
    obtain ⟨back, hfirst⟩ := adds_write hpending hvalid.1
    obtain ⟨back', hothers⟩ := ih (hfirst.pending_lt hpending) hvalid.2
    exact ⟨back ++ back', hfirst.trans hothers⟩

/-- A buffered writer writes what the writer of lists with the same bits does. -/
theorem buffer_view {w : BufferedWriter} (h : w.Fits) (request : WriteRequest) :
    (request.buffer w).Fits ∧ (request.buffer w).view = request.write w.view := by
  cases request with
  | bits value count => exact h.writeBits value count
  | byte value => exact h.writeByte value
  | uint16 order value => exact h.writeNumber 2 order value.toNat
  | uint32 order value => exact h.writeNumber 4 order value.toNat
  | uint64 order value => exact h.writeNumber 8 order value.toNat
  | align => exact h.align

theorem bufferAll_view {w : BufferedWriter} (h : w.Fits) (requests : List WriteRequest) :
    (bufferAll w requests).Fits ∧ (bufferAll w requests).view = writeAll w.view requests := by
  induction requests generalizing w with
  | nil => exact ⟨h, rfl⟩
  | cons request requests ih =>
    obtain ⟨hfits, hview⟩ := buffer_view h request
    rw [writeAll, List.foldl_cons, ← hview]
    exact ih hfits

theorem toBytes_bufferAll (order : BitOrder) (requests : List WriteRequest) :
    (bufferAll { order } requests).toBytes = (writeAll { order } requests).toBytes := by
  have hstart : BufferedWriter.Fits { order } := ⟨Nat.zero_lt_succ 7, Nat.one_pos⟩
  have hempty : BufferedWriter.view { order } = { order } := by cases order <;> rfl
  obtain ⟨hfits, hview⟩ := bufferAll_view hstart requests
  rw [hfits.toBytes, hview, hempty]

end WriteRequest

namespace BitTape
variable {t : BitTape}

/-- The bytes that come next are told by their bits. -/
theorem nextBytes_eq {bytes : List UInt8} {rest : List Bool}
    (h : t.bits.drop t.pos = bytes.flatMap t.order.ofByte ++ rest) : t.nextBytes bytes.length = bytes := by
  induction bytes generalizing t with
  | nil => rfl
  | cons b bytes ih =>
    have hlength := t.order.length_ofByte b
    rw [List.flatMap_cons, List.append_assoc] at h
    have hnext : t.next 8 = t.order.ofByte b := by
      rw [next, h, List.take_append_of_le_length (Nat.le_of_eq hlength.symm),
        List.take_of_length_le (Nat.le_of_eq hlength)]
    have hbyte : UInt8.ofNat (number t.order (t.next 8)) = b := by
      rw [hnext, number_eq, BitOrder.ofByte, BitOrder.value_bits]
      exact UInt8.toNat_inj.mp (by simp)
    have hrest : (t.forward 8).bits.drop (t.forward 8).pos = bytes.flatMap t.order.ofByte ++ rest := by
      rw [forward, ← List.drop_drop, h, List.drop_append_of_le_length (Nat.le_of_eq hlength.symm),
        List.drop_eq_nil_of_le (Nat.le_of_eq hlength), List.nil_append]
    rw [List.length_cons, nextBytes_succ, hbyte, ih hrest]

/-- The tape stands behind the bits that the writer has so far, and they are its own. -/
structure Behind (t : BitTape) (w : Writer) : Prop where
  order : t.order = w.order
  front : w.bits <+: t.bits
  place : t.pos = w.bits.length

namespace Behind
variable {w w' : Writer} {back : List Bool}

/-- What is written next comes next on the tape. -/
theorem next (h : t.Behind w) (hadds : w.Adds back w') (hfront : w'.bits <+: t.bits) :
    ∃ rest, t.bits.drop t.pos = back ++ rest := by
  obtain ⟨rest, hrest⟩ := hfront
  refine ⟨rest, ?_⟩
  rw [← hrest, hadds.bits, h.place, List.append_assoc, List.drop_left]

theorem forward (h : t.Behind w) (hadds : w.Adds back w') (hfront : w'.bits <+: t.bits) :
    (t.forward back.length).Behind w' where
  order := h.order.trans hadds.order.symm
  front := hfront
  place := by
    rw [hadds.bits, List.length_append, ← h.place]
    rfl

/-- Units of bits that are written next are passed over. -/
theorem pass (h : t.Behind w) (hadds : w.Adds back w') (hfront : w'.bits <+: t.bits) {width count : Nat}
    (hlength : back.length = width * count) (answer : ReadAnswer) :
    ∃ t', t.pass width count answer = (answer, t') ∧ t'.bits = t.bits ∧ t'.Behind w' := by
  obtain ⟨rest, hrest⟩ := h.next hadds hfront
  have hleft : width * count ≤ t.left := by
    have hdrop := congrArg List.length hrest
    rw [List.length_drop, List.length_append, hlength] at hdrop
    rw [left]
    omega
  rw [BitTape.pass, if_pos hleft, ← hlength]
  exact ⟨_, rfl, rfl, h.forward hadds hfront⟩

/-- A number that is written next is that of the bytes that come next. -/
theorem combined (h : t.Behind w) {order : ByteOrder} {count n : Nat} (hn : n < 256 ^ count)
    (hfront : (w.writeNumber count order n).bits <+: t.bits) : combined order (t.nextBytes count) = n := by
  obtain ⟨rest, hrest⟩ := h.next (w.adds_writeNumber count order n) hfront
  have hlength : (order.bytes count n).length = count := by
    cases order <;> simp [ByteOrder.bytes]
  rw [← h.order] at hrest
  have hbytes := nextBytes_eq hrest
  rw [hlength] at hbytes
  rw [combined_eq, hbytes, ByteOrder.value_bytes, Nat.mod_eq_of_lt hn]

/-- A number of some bytes that is written next is answered. -/
theorem pass_number (h : t.Behind w) {order : ByteOrder} {count n : Nat} (hn : n < 256 ^ count)
    (hfront : (w.writeNumber count order n).bits <+: t.bits) :
    ∃ t', t.pass 8 count (.number (BitTape.combined order (t.nextBytes count))) = (.number n, t') ∧
      t'.bits = t.bits ∧ t'.Behind (w.writeNumber count order n) := by
  have hlength : ((order.bytes count n).flatMap w.order.ofByte).length = 8 * count := by
    rw [BitOrder.length_flatMap_ofByte]
    cases order <;> simp [ByteOrder.bytes]
  rw [h.combined hn hfront]
  exact h.pass (w.adds_writeNumber count order n) hfront hlength _

/-- Asked for what is written next, the tape gives it and goes behind it. -/
theorem answer {request : WriteRequest} (h : t.Behind w) (hpending : w.pending.length < 8) (hvalid : request.Valid)
    (hfront : (request.write w).bits <+: t.bits) :
    ∃ t', t.answer request.mirrored = (request.written, t') ∧ t'.bits = t.bits ∧ t'.Behind (request.write w) := by
  cases request with
  | bits value count =>
    have hadds := w.adds_writeBits value hvalid.1 hvalid.2
    obtain ⟨rest, hrest⟩ := h.next hadds hfront
    have hlength := w.order.length_bits count value.toNat
    have hnumber : number t.order (t.next count) = value.toNat % 2 ^ count := by
      rw [BitTape.next, hrest, List.take_append_of_le_length (Nat.le_of_eq hlength.symm),
        List.take_of_length_le (Nat.le_of_eq hlength), number_eq, h.order, BitOrder.value_bits]
    have hcount : 1 ≤ count ∧ count ≤ 8 := hvalid
    rw [WriteRequest.mirrored, BitTape.answer, if_pos hcount, hnumber]
    exact h.pass hadds hfront (hlength.trans (Nat.mul_one count).symm) _
  | byte value =>
    have hadds := w.adds_writeByte value
    obtain ⟨rest, hrest⟩ := h.next hadds hfront
    have hlength := w.order.length_ofByte value
    have hnumber : number t.order (t.next 8) = value.toNat := by
      rw [BitTape.next, hrest, List.take_append_of_le_length (Nat.le_of_eq hlength.symm),
        List.take_of_length_le (Nat.le_of_eq hlength), number_eq, h.order, BitOrder.ofByte, BitOrder.value_bits,
        Nat.mod_eq_of_lt value.toNat_lt]
    rw [WriteRequest.mirrored, BitTape.answer, hnumber]
    exact h.pass hadds hfront hlength _
  | uint16 order value => exact h.pass_number value.toNat_lt hfront
  | uint32 order value => exact h.pass_number value.toNat_lt hfront
  | uint64 order value => exact h.pass_number value.toNat_lt hfront
  | align =>
    obtain ⟨hadds, hnone⟩ := Writer.adds_align hpending
    have hplace : t.aligned = t.forward ((8 - w.pending.length) % 8) := by
      have hlength := w.length_bits
      have hwhole : 8 * t.begun = t.pos + (8 - w.pending.length) % 8 := by
        rw [begun, h.place]
        omega
      rw [aligned, hwhole]
      rfl
    have hbehind := h.forward hadds hfront
    rw [List.length_replicate, ← hplace] at hbehind
    exact ⟨t.aligned, rfl, rfl, hbehind⟩

/-- Asked for all that is written, the tape gives it and goes behind it. -/
theorem answers {requests : List WriteRequest} (h : t.Behind w) (hpending : w.pending.length < 8)
    (hvalid : ∀ request ∈ requests, request.Valid) (hfront : (WriteRequest.writeAll w requests).bits <+: t.bits) :
    ∃ t', ReadRequest.answers BitTape.answer (requests.map (·.mirrored)) t = (requests.map (·.written), t') ∧
      t'.bits = t.bits ∧ t'.Behind (WriteRequest.writeAll w requests) := by
  induction requests generalizing w t with
  | nil => exact ⟨t, rfl, rfl, h⟩
  | cons request requests ih =>
    rw [List.forall_mem_cons] at hvalid
    obtain ⟨back, hfirst⟩ := WriteRequest.adds_write hpending hvalid.1
    have hpending' := hfirst.pending_lt hpending
    obtain ⟨back', hothers⟩ := WriteRequest.adds_writeAll hpending' hvalid.2
    have hfirstFront : (request.write w).bits <+: t.bits :=
      List.IsPrefix.trans ⟨back', hothers.bits.symm⟩ hfront
    obtain ⟨t₁, hanswer, hbits, h₁⟩ := h.answer hpending hvalid.1 hfirstFront
    obtain ⟨t₂, hrest, hbits', h₂⟩ := ih h₁ hpending' hvalid.2 (hbits ▸ hfront)
    refine ⟨t₂, ?_, hbits'.trans hbits, h₂⟩
    rw [List.map_cons, List.map_cons, ReadRequest.answers, hanswer]
    dsimp only
    rw [hrest]

end Behind
end BitTape

/-- Whatever is written is read again from the finished bytes, and fewer than eight bits, all of
them zero, are left behind it. So it is where bits are shifted, both by the writer and by the reader. -/
theorem Writer.answers_written (order : BitOrder) (requests : List WriteRequest)
    (hvalid : ∀ request ∈ requests, request.Valid) :
    ∃ (r : Reader) (b : BufferedReader),
      ReadRequest.answers ReadRequest.ask (requests.map (·.mirrored))
          (.ofBytes (WriteRequest.writeAll { order } requests).toBytes order) = (requests.map (·.written), r) ∧
        ReadRequest.answers ReadRequest.ask (requests.map (·.mirrored))
          (.ofBytes (WriteRequest.bufferAll { order } requests).toBytes order) = (requests.map (·.written), b) ∧
        b.view = r ∧ r.left < 8 ∧ ∀ bit ∈ r.bits, bit = false := by
  let start : Writer := { order }
  let w := WriteRequest.writeAll start requests
  have hstart : start.pending.length < 8 := Nat.zero_lt_succ 7
  obtain ⟨back, hadds⟩ := WriteRequest.adds_writeAll hstart hvalid
  have hpending : w.pending.length < 8 := hadds.pending_lt hstart
  have hshows := Reader.shows_ofBytes w.toBytes order
  have hbits : (BitTape.ofBytes w.toBytes order).bits =
      w.bits ++ List.replicate ((8 - w.pending.length) % 8) false := by
    rw [← flatMap_toBytes hpending, hadds.order, BitTape.ofBytes, funext (BitTape.bitsOf_eq order)]
  have hbehind : (BitTape.ofBytes w.toBytes order).Behind start := ⟨rfl, List.nil_prefix, rfl⟩
  have hfront : w.bits <+: (BitTape.ofBytes w.toBytes order).bits := ⟨_, hbits.symm⟩
  obtain ⟨t', hanswers, hbits', hend⟩ := hbehind.answers hstart hvalid hfront
  obtain ⟨r, hask, hr⟩ := hshows.answers (requests.map (·.mirrored))
  rw [hanswers] at hask hr
  have hrest : r.bits = List.replicate ((8 - w.pending.length) % 8) false := by
    rw [hr.bits, hbits', hbits, hend.place, List.drop_left]
  rw [WriteRequest.toBytes_bufferAll]
  obtain ⟨b, hbuffered, hview⟩ := BufferedReader.answers_of_view (.ofBytes w.toBytes order) hask
  refine ⟨r, b, hask, hbuffered, hview, ?_, ?_⟩
  · rw [← r.length_bits, hrest, List.length_replicate]
    exact Nat.mod_lt _ (by decide)
  · rw [hrest]
    exact fun bit hbit => List.eq_of_mem_replicate hbit

/-- Bytes and numbers across the bounds of bytes, then on such a bound. -/
theorem Writer.answers_written_across :
    let requests : List WriteRequest :=
      [.bits 5 3, .bits 14 2, .byte 0xA5, .bits 6 3, .align, .uint16 .little 0xBEEF, .bits 9 4, .uint32 .big 0xDEADBEEF]
    let mirrored : List ReadRequest :=
      [.bits 3, .bits 2, .byte, .bits 3, .align, .uint16 .little, .bits 4, .uint32 .big]
    let written : List ReadAnswer :=
      [.number 5, .number 2, .number 0xA5, .number 6, .done, .number 0xBEEF, .number 9, .number 0xDEADBEEF]
    ∃ (r : Reader) (b : BufferedReader),
      ReadRequest.answers ReadRequest.ask mirrored
          (.ofBytes (WriteRequest.writeAll { order := .lsb0 } requests).toBytes .lsb0) = (written, r) ∧
        ReadRequest.answers ReadRequest.ask mirrored
          (.ofBytes (WriteRequest.bufferAll { order := .lsb0 } requests).toBytes .lsb0) = (written, b) ∧
        b.view = r ∧ r.left < 8 ∧ ∀ bit ∈ r.bits, bit = false := by
  intro requests mirrored written
  have hvalid : ∀ request ∈ requests, request.Valid := by
    simp [requests, WriteRequest.Valid]
  exact answers_written .lsb0 _ hvalid

end LayoutScript
