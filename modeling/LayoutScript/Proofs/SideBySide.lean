import LayoutScript.Proofs.Checked
import LayoutScript.Proofs.ReadScript
import LayoutScript.Proofs.ReadSteps

/-! # Two readings side by side

Two readings of the same declarations stay together if their sources do: from states that belong
together both give the same outcome, and go on in states that belong together. This has to be known
of the reads of bits and bytes and of the numbers that sizes stand for; for arrays, structures and
everything that is made of them it follows here. A fault of the first reading may be excused, and
then nothing is said of the second one.
-/
namespace LayoutScript

/-- Which states of two computations belong together, and behind which faults of the first one they
need not. -/
structure Pairing (σ τ : Type) where
  Meets : σ → τ → Prop
  Excused : Fault → Prop := fun _ => False

namespace Pairing
variable {σ τ α β : Type} {p : Pairing σ τ}

/-- The outcomes of two computations, with the states behind them. -/
inductive Agree (p : Pairing σ τ) : Except Fault α × σ → Except Fault α × τ → Prop where
  | same (outcome : Except Fault α) {s : σ} {t : τ} (h : p.Meets s t) : Agree p (outcome, s) (outcome, t)
  | excused {fault : Fault} (h : p.Excused fault) (s : σ) (y : Except Fault α × τ) : Agree p (.error fault, s) y

theorem Agree.cases {x : Except Fault α × σ} {y : Except Fault α × τ} (h : p.Agree x y) :
    (∃ a s t, x = (.ok a, s) ∧ y = (.ok a, t) ∧ p.Meets s t) ∨
      (∃ fault s t, x = (.error fault, s) ∧ y = (.error fault, t) ∧ p.Meets s t) ∨
        ∃ fault s, x = (.error fault, s) ∧ p.Excused fault := by
  cases h with
  | same outcome h =>
    cases outcome with
    | ok a => exact .inl ⟨a, _, _, rfl, rfl, h⟩
    | error fault => exact .inr (.inl ⟨fault, _, _, rfl, rfl, h⟩)
  | excused h s y => exact .inr (.inr ⟨_, s, rfl, h⟩)

theorem Agree.of_ok {a : α} {s : σ} {y : Except Fault α × τ} (h : p.Agree (.ok a, s) y) :
    ∃ t, y = (.ok a, t) ∧ p.Meets s t := by
  cases h with
  | same _ h => exact ⟨_, rfl, h⟩

/-- From states that belong together both computations have the same outcome. -/
def Alike (p : Pairing σ τ) (x : Stateful σ α) (y : Stateful τ α) : Prop := ∀ s t, p.Meets s t → p.Agree (x s) (y t)

namespace Alike
variable {x : Stateful σ α} {y : Stateful τ α} {f : α → Stateful σ β} {g : α → Stateful τ β}

theorem pure (a : α) : p.Alike (pure a) (pure a) := fun _ _ hst => .same _ hst

theorem throw (fault : Fault) : p.Alike (throw fault : Stateful σ α) (throw fault) := fun _ _ hst => .same _ hst

theorem bind (h : p.Alike x y) (h' : ∀ a, p.Alike (f a) (g a)) : p.Alike (x >>= f) (y >>= g) := by
  intro s t hst
  rw [Stateful.bind_apply, Stateful.bind_apply]
  rcases (h s t hst).cases with ⟨a, s', t', hx, hy, hst'⟩ | ⟨fault, s', t', hx, hy, hst'⟩ | ⟨fault, s', hx, hexcused⟩
  · rw [hx, hy]
    exact h' a s' t' hst'
  · rw [hx, hy]
    exact .same _ hst'
  · rw [hx]
    exact .excused hexcused _ _

theorem modify {change : σ → σ} {change' : τ → τ} (h : ∀ s t, p.Meets s t → p.Meets (change s) (change' t)) :
    p.Alike (modify change) (modify change') := fun s t hst => .same _ (h s t hst)

/-- What is told by either state is the same if it is the same where they belong together. -/
theorem get {look : σ → α} {look' : τ → α} (h : ∀ s t, p.Meets s t → look' t = look s)
    (h' : ∀ a, p.Alike (f a) (g a)) : p.Alike (do f (look (← get))) (do g (look' (← get))) := by
  intro s t hst
  rw [Stateful.bind_ok (Stateful.get_apply s), Stateful.bind_ok (Stateful.get_apply t), h s t hst]
  exact h' (look s) s t hst

theorem repeatedly (h : p.Alike x y) (n : Nat) : p.Alike (x.repeatedly n) (y.repeatedly n) := by
  induction n with
  | zero => exact .pure ()
  | succ n ih => exact h.bind fun _ => ih

end Alike

variable [BitSource σ] [BitSource τ]

/-- Sources that read and skip bytes alike. -/
structure ReadsBytes (p : Pairing σ τ) : Prop where
  counter : ∀ s t, p.Meets s t → BitSource.counter t = BitSource.counter s
  align : ∀ s t, p.Meets s t → p.Meets (BitSource.align s) (BitSource.align t)
  restart : ∀ s t, p.Meets s t → p.Meets (BitSource.restart s) (BitSource.restart t)
  readByte : p.Alike BitSource.readByte BitSource.readByte
  skipBytes : ∀ count, p.Alike (BitSource.skipBytes count) (BitSource.skipBytes count)

namespace ReadsBytes
variable (hp : p.ReadsBytes)
include hp

theorem readBytes (count : Nat) : p.Alike (BitSource.readBytes count) (BitSource.readBytes count) := by
  induction count with
  | zero => exact .pure []
  | succ count ih =>
    rw [BitSource.readBytes_succ, BitSource.readBytes_succ]
    exact hp.readByte.bind fun _ => ih.bind fun _ => .pure _

theorem alignTo (size : Nat) : p.Alike (BitSource.alignTo size) (BitSource.alignTo size) := by
  refine (Alike.modify hp.align).bind fun _ => ?_
  by_cases hsize : 1 < size
  · simp only [if_pos hsize]
    exact .get (fun s t hst => by rw [hp.counter s t hst]) fun _ => hp.readByte.repeatedly _
  · simp only [if_neg hsize]
    exact .pure ()

theorem readWhole (order : ByteOrder) (type : WholeType) : p.Alike (readWhole order type) (readWhole order type) := by
  have hnumber : ∀ (count : Nat) {α : Type} (value : Nat → α),
      p.Alike (do return value (← BitSource.readNumber count order))
        (do return value (← BitSource.readNumber count order)) :=
    fun count _ _ => ((hp.readBytes count).bind fun _ => .pure _).bind fun _ => .pure _
  cases type with
  | ubyte => exact hp.readByte
  | bool | byte => exact hp.readByte.bind fun _ => .pure _
  | ushort => exact hnumber 2 UInt16.ofNat
  | short => exact (hnumber 2 UInt16.ofNat).bind fun _ => .pure _
  | int => exact (hnumber 4 UInt32.ofNat).bind fun _ => .pure _
  | long => exact (hnumber 8 UInt64.ofNat).bind fun _ => .pure _

end ReadsBytes

/-- As much input is left on both sides. -/
def KeepsLeft (p : Pairing σ τ) : Prop := ∀ s t, p.Meets s t → BitSource.left t = BitSource.left s

/-- Options that differ in the order of bits at most. Tolerant readings look at how much input is left
and go on behind a fault, so none must be excused. -/
structure Under (p : Pairing σ τ) (options options' : ReadOptions) : Prop where
  tolerant : options'.tolerant = options.tolerant
  maxDepth : options'.maxDepth = options.maxDepth
  maxElements : options'.maxElements = options.maxElements
  left : options.tolerant = true → p.KeepsLeft
  unexcused : options.tolerant = true → ∀ fault, ¬p.Excused fault

section arrays
variable {options options' : ReadOptions} (ho : p.Under options options') {read : Stateful σ α} {read' : Stateful τ α}
include ho

/-- A fault that is tolerated is none that is excused. -/
theorem Under.tolerated {fault : Fault} (h : p.Excused fault) : (fault.isEndOfInput && options.tolerant) = false := by
  rw [Bool.and_eq_false_iff]
  exact .inr (Bool.eq_false_iff.mpr fun htolerant => ho.unexcused htolerant fault h)

theorem Alike.readExactly (h : p.Alike read read') (n : Nat) (acc : List α) :
    p.Alike (readExactly options read n acc) (readExactly options' read' n acc) := by
  induction n generalizing acc with
  | zero => exact .pure _
  | succ n ih =>
    intro s t hst
    rw [LayoutScript.readExactly, LayoutScript.readExactly, ho.tolerant]
    dsimp only
    rcases (h s t hst).cases with ⟨a, s', t', hx, hy, hst'⟩ | ⟨fault, s', t', hx, hy, hst'⟩ | ⟨fault, s', hx, hexcused⟩
    · rw [hx, hy]
      exact ih (a :: acc) s' t' hst'
    · rw [hx, hy]
      dsimp only
      split <;> exact .same _ hst'
    · simp only [hx, ho.tolerated hexcused, Bool.false_eq_true, if_false]
      exact .excused hexcused _ _

theorem Alike.readUntilEnd (h : p.Alike read read') (hleft : p.KeepsLeft) (size : Nat) (acc : List α) :
    p.Alike (readUntilEnd options read size acc) (readUntilEnd options' read' size acc) := by
  intro s t hst
  induction hn : BitSource.left s using Nat.strongRecOn generalizing size acc s t with
  | _ n ih =>
    rw [LayoutScript.readUntilEnd, LayoutScript.readUntilEnd, hleft s t hst, ho.tolerant, ho.maxElements]
    by_cases hend : BitSource.left s = 0
    · rw [if_pos hend, if_pos hend]
      exact .same _ hst
    rw [if_neg hend, if_neg hend]
    by_cases hmax : options.maxElements ≤ size
    · rw [if_pos hmax, if_pos hmax]
      exact .same _ hst
    rw [if_neg hmax, if_neg hmax]
    rcases (h s t hst).cases with ⟨a, s', t', hx, hy, hst'⟩ | ⟨fault, s', t', hx, hy, hst'⟩ | ⟨fault, s', hx, hexcused⟩
    · rw [hx, hy]
      dsimp only
      rw [hleft s' t' hst']
      by_cases hless : BitSource.left s' < BitSource.left s
      · rw [if_pos hless, if_pos hless]
        exact ih _ (hn ▸ hless) (size + 1) (a :: acc) s' t' hst' rfl
      · rw [if_neg hless, if_neg hless]
        exact .same _ hst'
    · rw [hx, hy]
      dsimp only
      split <;> exact .same _ hst'
    · simp only [hx, ho.tolerated hexcused, Bool.false_eq_true, if_false]
      exact .excused hexcused _ _

theorem Alike.readScalars {type : ScalarType} {read : Stateful σ type.Carrier} {read' : Stateful τ type.Carrier}
    (h : p.Alike read read') {count : ElementCount} (hcount : count = .untilEnd → p.KeepsLeft) :
    p.Alike (readScalars options type count read) (readScalars options' type count read') := by
  cases count with
  | one => exact h.bind fun _ => .pure _
  | exactly n => exact (h.readExactly ho n []).bind fun _ => .pure _
  | untilEnd => exact (h.readUntilEnd ho (hcount rfl) 0 []).bind fun _ => .pure _

end arrays

/-! ## Declarations -/

/-- Runs belong together if their sources do and if the same numbers have been read. -/
def runs (p : Pairing σ τ) : Pairing (Run σ) (Run τ) where
  Meets run run' := p.Meets run.source run'.source ∧ run'.readings = run.readings
  Excused := p.Excused

variable {run : Run σ} {run' : Run τ}

omit [BitSource σ] [BitSource τ] in
theorem meets_keepReading (h : p.runs.Meets run run') (info : Option NamedField) (v : Value) :
    p.runs.Meets (Setting.keepReading info v run) (Setting.keepReading info v run') := by
  rw [Setting.keepReading.eq_def, Setting.keepReading.eq_def]
  split
  · exact ⟨h.1, congrArg (fun readings : Readings => readings.put _ _) h.2⟩
  · exact h

theorem ReadsBytes.readValue (hp : p.ReadsBytes) {s : Setting σ} {s' : Setting τ} (ho : p.Under s.options s'.options)
    {h : Head} (hplain : h.Plain) {q : Request} (hcount : q.count = .untilEnd → p.KeepsLeft)
    (hbits : h.kind = .bit → ∀ width, p.Alike (BitSource.readBits width) (BitSource.readBits width) ∧
      (q.count = .untilEnd → p.Alike (BitSource.readBitsUpTo width) (BitSource.readBitsUpTo width)))
    (readings : Readings) : p.Alike (h.readValue s q readings) (h.readValue s' q readings) := by
  have hextra : p.Alike (h.nonNegative q.extra) (h.nonNegative q.extra) := by
    rw [Head.nonNegative, Head.nonNegative]
    split
    · exact .throw _
    · exact .pure _
  rw [Head.readValue, Head.readValue]
  cases hk : h.kind with
  | var => exact absurd hk hplain.1
  | custom => exact absurd hk hplain.2
  | opening | closing => exact .throw _
  | align => exact hextra.bind fun _ => (hp.alignTo _).bind fun _ => .pure _
  | skip => exact hextra.bind fun _ => (hp.skipBytes _).bind fun _ => .pure _
  | restart => exact (Alike.modify hp.restart).bind fun _ => .pure _
  | whole type => exact (hp.readWhole q.order type).readScalars ho hcount
  | bit =>
    dsimp only
    split
    · obtain ⟨hread, hreadUpTo⟩ := hbits hk q.extra.toInt.toNat
      refine Alike.readScalars ho ?_ hcount
      cases hq : q.count with
      | one | exactly n => exact hread
      | untilEnd => exact (hreadUpTo hq).bind fun _ => .pure _
    · exact .throw _

/-- Declarations of which both requests and values agree. How much input is left has to agree for
arrays up to the end of the input only. -/
structure Suits (p : Pairing σ τ) (s : Setting σ) (s' : Setting τ) (h : Head) : Prop where
  request : ∀ run run', p.runs.Meets run run' → (h.request s' run').1 = (h.request s run).1
  value : ∀ q, h.Requests q → ∀ readings, p.Alike (h.readValue s q readings) (h.readValue s' q readings)
  left : h.extent = .untilEnd → p.KeepsLeft

open Declaration

section structures
variable {options options' : ReadOptions} {body : Stateful (Run σ) Yield} {body' : Stateful (Run τ) Yield}

omit [BitSource σ] [BitSource τ] in
theorem Alike.readTimes (h : p.runs.Alike body body') (n : Nat) :
    p.runs.Alike (readTimes body n) (readTimes body' n) := by
  induction n with
  | zero => exact .pure _
  | succ n ih =>
    refine h.bind fun y => ?_
    cases y.halted with
    | true => exact .pure _
    | false => exact ih.bind fun _ => .pure _

theorem Alike.readWhile (h : p.runs.Alike body body') (hmax : options'.maxElements = options.maxElements)
    (hleft : p.KeepsLeft) (size : Nat) :
    p.runs.Alike (readWhile options body size) (readWhile options' body' size) := by
  intro run run' hruns
  induction hn : BitSource.left run.source using Nat.strongRecOn generalizing size run run' with
  | _ n ih =>
    rw [Declaration.readWhile, Declaration.readWhile, hleft _ _ hruns.1, hmax]
    by_cases hend : BitSource.left run.source = 0
    · rw [if_pos hend, if_pos hend]
      exact .same _ hruns
    rw [if_neg hend, if_neg hend]
    by_cases hlimit : options.maxElements ≤ size
    · rw [if_pos hlimit, if_pos hlimit]
      exact .same _ hruns
    rw [if_neg hlimit, if_neg hlimit]
    rcases (h run run' hruns).cases with
      ⟨y, run₁, run₁', hx, hy, hruns₁⟩ | ⟨fault, run₁, run₁', hx, hy, hruns₁⟩ | ⟨fault, run₁, hx, hexcused⟩
    · rw [hx, hy]
      dsimp only
      rw [hleft _ _ hruns₁.1]
      by_cases hhalted : y.halted
      · rw [if_pos hhalted, if_pos hhalted]
        exact .same _ hruns₁
      rw [if_neg hhalted, if_neg hhalted]
      by_cases hless : BitSource.left run₁.source < BitSource.left run.source
      · rw [if_pos hless, if_pos hless]
        rcases (ih _ (hn ▸ hless) (size + 1) run₁ run₁' hruns₁ rfl).cases with
          ⟨items, _, _, hx, hy, hruns₂⟩ | ⟨fault, _, _, hx, hy, hruns₂⟩ | ⟨fault, _, hx, hexcused⟩
        · rw [hx, hy]
          exact .same _ hruns₂
        · rw [hx, hy]
          exact .same _ hruns₂
        · rw [hx]
          exact .excused hexcused _ _
      · rw [if_neg hless, if_neg hless]
        exact .same _ hruns₁
    · rw [hx, hy]
      exact .same _ hruns₁
    · rw [hx]
      exact .excused hexcused _ _

theorem Alike.readElements (h : p.runs.Alike body body') (hmax : options'.maxElements = options.maxElements)
    {count : ElementCount} (hcount : count = .untilEnd → p.KeepsLeft) :
    p.runs.Alike (readElements options count body) (readElements options' count body') := by
  cases count with
  | one => exact h.bind fun _ => .pure _
  | exactly n => exact (h.readTimes n).bind fun _ => .pure _
  | untilEnd => exact (h.readWhile hmax (hcount rfl) 0).bind fun _ => .pure _

end structures

variable {s : Setting σ} {s' : Setting τ}

theorem Under.stopsBefore (ho : p.Under s.options s'.options) (kind : Kind) (count : ElementCount)
    (h : p.runs.Meets run run') : s'.stopsBefore kind count run' = s.stopsBefore kind count run := by
  rw [Setting.stopsBefore, Setting.stopsBefore, ho.tolerant]
  cases htolerant : s.options.tolerant with
  | false => rfl
  | true => rw [BitSource.hasMore, BitSource.hasMore, ho.left htolerant _ _ h.1]

theorem Suits.readSingle (ho : p.Under s.options s'.options) {h : Head} (hh : p.Suits s s' h) {q : Request}
    (hq : h.Requests q) : p.runs.Alike (h.readSingle s q) (h.readSingle s' q) := by
  intro run run' hruns
  rw [Head.readSingle_eq, Head.readSingle_eq, hruns.2, ho.tolerant]
  rcases (hh.value q hq run.readings _ _ hruns.1).cases with
    ⟨reply, r, r', hx, hy, hr⟩ | ⟨fault, r, r', hx, hy, hr⟩ | ⟨fault, r, hx, hexcused⟩
  · rw [hx, hy]
    have hruns' : p.runs.Meets { run with source := r } { run with source := r' } := ⟨hr, rfl⟩
    cases reply with
    | nothing | cut value => exact .same _ hruns'
    | value value => exact .same _ (meets_keepReading hruns' h.info value)
  · rw [hx, hy]
    dsimp only
    split <;> exact .same _ ⟨hr, rfl⟩
  · simp only [hx, ho.tolerated hexcused, Bool.false_eq_true, if_false]
    exact .excused (p := p.runs) hexcused _ _

mutual

theorem alike_read (ho : p.Under s.options s'.options) : (d : Declaration) → d.Formed (p.Suits s s') → ∀ depth : Nat,
    p.runs.Alike (d.read s depth) (d.read s' depth)
  | .single h, hf, depth => by
    intro run run' hruns
    rw [read_single, read_single, hf.1.request run run' hruns]
    cases hq : (h.request s run).1 with
    | error fault => exact .same _ hruns
    | ok q =>
      dsimp only
      rw [ho.stopsBefore h.kind q.count hruns]
      by_cases hstop : s.stopsBefore h.kind q.count run
      · rw [if_pos hstop, if_pos hstop]
        exact .same _ hruns
      · rw [if_neg hstop, if_neg hstop]
        exact hf.1.readSingle ho (Head.request_ok hq) run run' hruns
  | .nested h members, hf, depth => by
    intro run run' hruns
    rw [read_nested, read_nested, hf.1.request run run' hruns]
    cases hq : (h.request s run).1 with
    | error fault => exact .same _ hruns
    | ok q =>
      dsimp only
      rw [ho.stopsBefore h.kind q.count hruns, ho.maxDepth]
      by_cases hstop : s.stopsBefore h.kind q.count run
      · rw [if_pos hstop, if_pos hstop]
        exact .same _ hruns
      rw [if_neg hstop, if_neg hstop]
      by_cases hdepth : s.options.maxDepth < depth + 1
      · rw [if_pos hdepth, if_pos hdepth]
        exact .same _ hruns
      rw [if_neg hdepth, if_neg hdepth]
      have hcount : q.count = .untilEnd → p.KeepsLeft := fun h => hf.1.left ((Head.request_ok hq).untilEnd.mp h)
      have hmembers := alike_readAll ho members hf.2.2 (depth + 1)
      rcases (hmembers.readElements ho.maxElements hcount run run' hruns).cases with
        ⟨x, run₁, run₁', hx, hy, hruns₁⟩ | ⟨fault, run₁, run₁', hx, hy, hruns₁⟩ | ⟨fault, run₁, hx, hexcused⟩
      · rw [hx, hy]
        exact .same _ hruns₁
      · rw [hx, hy]
        exact .same _ hruns₁
      · rw [hx]
        exact .excused hexcused _ _

/-- Declarations that are read alike one by one are read alike together. -/
theorem alike_readAll (ho : p.Under s.options s'.options) : (ds : List Declaration) → FormedAll (p.Suits s s') ds →
    ∀ depth : Nat, p.runs.Alike (readAll s depth ds) (readAll s' depth ds)
  | [], _, _ => .pure _
  | d :: ds, hf, depth => by
    refine (alike_read ho d hf.1 depth).bind fun first => ?_
    cases first.halted with
    | true => exact .pure _
    | false => exact (alike_readAll ho ds hf.2 depth).bind fun _ => .pure _

end

theorem agree_readScript (ho : p.Under s.options s'.options) {ds : List Declaration} (hf : FormedAll (p.Suits s s') ds)
    {source : σ} {source' : τ} (h : p.Meets source source') :
    p.runs.Agree (readScript s ds source) (readScript s' ds source') :=
  ((alike_readAll ho ds hf 0).bind fun y => .pure (Record.mk y.fields)) { source } { source := source' } ⟨h, rfl⟩

end Pairing
end LayoutScript
