import LayoutScript.Proofs.ReadSteps

/-! # Reading from a used-up input

No scalar can be read when the input is used up. What is read there all the same takes and
keeps nothing: arrays without elements, structures made of such, skips over no bytes and
modifiers that at most restart the counter.
-/
namespace LayoutScript

namespace Reader
variable {r r' : Reader}

theorem pending_of_left (h : r.left = 0) : r.pending = [] := by
  rw [left] at h
  exact List.length_eq_zero_iff.mp (by omega)

theorem data_of_left (h : r.left = 0) : r.data[r.pos]? = none := by
  rw [left, remaining] at h
  exact Array.getElem?_eq_none (by omega)

theorem align_usedUp (h : r.left = 0) : r.align = r := by
  obtain ⟨data, order, pos, base, pending⟩ := r
  have hp : pending = [] := pending_of_left h
  subst hp
  rfl

theorem left_restart (h : r.left = 0) : r.restart.left = 0 := by
  rw [left] at h ⊢
  change 8 * r.remaining + 0 = 0
  omega

theorem restart_restart (r : Reader) : r.restart.restart = r.restart := rfl

theorem readByte_usedUp (h : r.left = 0) : r.readByte = (.error (.input (.endOfInput r.counter 8)), r) := by
  rw [readByte, pending_of_left h, data_of_left h]
  rfl

theorem takeBits_usedUp (h : r.left = 0) (count : Nat) (lenient : Bool) :
    ∃ fault, takeBits count lenient r = (.error fault, r) := by
  rw [takeBits, pending_of_left h, data_of_left h]
  split
  · exact ⟨_, rfl⟩
  · rename_i hcount
    rw [if_neg (by simp only [List.length_nil]; omega)]
    simp only [List.isEmpty_nil, Bool.not_true, Bool.and_false, Bool.false_eq_true, if_false, align_usedUp h]
    exact ⟨_, rfl⟩

/-- Skipping succeeds on a used-up input only over no bytes. -/
theorem skipBytes_usedUp (h : r.left = 0) {count : Nat} (hok : skipBytes count r = (.ok (), r')) :
    r' = r := by
  rw [skipBytes, pending_of_left h] at hok
  simp only [List.isEmpty_nil, if_true] at hok
  split at hok
  · cases hok
  · rename_i hcount
    have hzero : count = 0 := by
      rw [left] at h
      omega
    have hpending := pending_of_left h
    cases hok
    rw [hzero, Nat.add_zero, ← hpending]

end Reader

/-- Reading fails. -/
def Fails {σ α : Type} (read : Stateful σ α) (s : σ) : Prop := ∃ fault s', read s = (.error fault, s')

namespace Fails
variable {σ α β : Type} {read : Stateful σ α} {s : σ}

theorem bind (h : Fails read s) (f : α → Stateful σ β) : Fails (read >>= f) s := by
  obtain ⟨fault, s', h⟩ := h
  exact ⟨fault, s', Stateful.bind_error h f⟩

theorem not_ok (h : Fails read s) {a : α} {s' : σ} (hok : read s = (.ok a, s')) : False := by
  obtain ⟨fault, s'', h⟩ := h
  rw [h] at hok
  cases hok

end Fails

section reader
variable {r r' : Reader}

theorem fails_readByte (h : r.left = 0) : Fails (BitSource.readByte (σ := Reader)) r :=
  ⟨_, r, Reader.readByte_usedUp h⟩

theorem fails_readNumber (h : r.left = 0) (n : Nat) (order : ByteOrder) :
    Fails (BitSource.readNumber (σ := Reader) (n + 1) order) r := by
  refine Fails.bind ⟨.input (.endOfInput r.counter 8), r, ?_⟩ _
  have hbyte : (BitSource.readByte (σ := Reader)).on r = (.error (.input (.endOfInput r.counter 8)), r) :=
    Reader.readByte_usedUp h
  rw [BitSource.readBytes, BitSource.fill, hbyte]

theorem fails_readWhole (h : r.left = 0) (order : ByteOrder) (type : WholeType) :
    Fails (readWhole (σ := Reader) order type) r := by
  cases type with
  | bool | byte => exact (fails_readByte h).bind _
  | ubyte => exact fails_readByte h
  | ushort => exact (fails_readNumber h 1 order).bind _
  | short => exact ((fails_readNumber h 1 order).bind _).bind _
  | int => exact ((fails_readNumber h 3 order).bind _).bind _
  | long => exact ((fails_readNumber h 7 order).bind _).bind _

theorem fails_readBits (h : r.left = 0) (width : Nat) (count : ElementCount) :
    Fails (σ := Reader) (match count with
      | .untilEnd => do return (← BitSource.readBitsUpTo width).1
      | _ => BitSource.readBits width) r := by
  have htake : ∀ lenient, Fails (Reader.takeBits width lenient) r := fun lenient => by
    obtain ⟨fault, hfault⟩ := Reader.takeBits_usedUp h width lenient
    exact ⟨fault, r, hfault⟩
  cases count with
  | one | exactly n => exact (htake false).bind _
  | untilEnd => exact (htake true).bind _

/-- From a used-up input nothing but an array without elements is read. -/
theorem readScalars_usedUp {options : ReadOptions} (hstrict : options.tolerant = false) (h : r.left = 0)
    {type : ScalarType} {count : ElementCount} {read : Stateful Reader type.Carrier} (hread : Fails read r)
    {reply : Reply} (hok : readScalars options type count read r = (.ok reply, r')) :
    reply = .value (.array type []) ∧ r' = r ∧ (count = .exactly 0 ∨ count = .untilEnd) := by
  obtain ⟨fault, r₁, hfault⟩ := hread
  cases count with
  | one =>
    rw [readScalars, Stateful.bind_error hfault] at hok
    cases hok
  | exactly n =>
    cases n with
    | zero =>
      cases hok
      exact ⟨rfl, rfl, .inl rfl⟩
    | succ n =>
      have hfails : Fails (readExactly options read (n + 1) []) r := by
        refine ⟨fault, r₁, ?_⟩
        simp only [readExactly, hfault, hstrict, Bool.and_false, Bool.false_eq_true, if_false]
      exact ((hfails.bind _).not_ok hok).elim
  | untilEnd =>
    have hnone : readUntilEnd options read 0 [] r = (.ok ([], false), r) := by
      rw [readUntilEnd, if_pos (show BitSource.left r = 0 from h)]
      rfl
    rw [readScalars, readArray, Stateful.bind_ok hnone] at hok
    · cases hok
      exact ⟨rfl, rfl, .inr rfl⟩
    · exact fun h => by cases h

theorem alignTo_usedUp (h : r.left = 0) {size : Nat} (hok : BitSource.alignTo size r = (.ok (), r')) : r' = r := by
  have halign : BitSource.align r = r := Reader.align_usedUp h
  rw [BitSource.alignTo, Stateful.bind_ok (Stateful.modify_apply BitSource.align r), halign] at hok
  by_cases hsize : 1 < size
  · rw [if_pos hsize, Stateful.bind_ok (Stateful.get_apply r)] at hok
    cases hn : (size - BitSource.counter r % size) % size with
    | zero =>
      rw [hn] at hok
      cases hok
      rfl
    | succ n =>
      rw [hn] at hok
      exact (((fails_readByte h).bind _).not_ok hok).elim
  · rw [if_neg hsize] at hok
    cases hok
    rfl

end reader

theorem Head.nonNegative_source {σ : Type} {h : Head} {extra : Int32} {n : Nat} {s s' : σ}
    (hok : h.nonNegative extra s = (.ok n, s')) : s' = s := by
  rw [nonNegative] at hok
  split at hok
  · cases hok
  · cases hok
    rfl

/-- The kinds whose values the library reads by itself. -/
def Head.Plain (h : Head) : Prop := h.kind ≠ .var ∧ h.kind ≠ .custom

theorem readsInput_empty (kind : Kind) {count : ElementCount} (h : count = .exactly 0 ∨ count = .untilEnd) :
    readsInput kind count = false := by
  rcases h with rfl | rfl <;> rfl

/-- From a used-up input a declaration reads nothing or an array without elements, and
nothing at all where it needs input. -/
theorem Head.readValue_usedUp {s : Setting Reader} (hstrict : s.options.tolerant = false) {h : Head} (hp : h.Plain)
    {q : Request} {readings : Readings} {r r' : Reader} (hleft : r.left = 0) {reply : Reply}
    (hok : h.readValue s q readings r = (.ok reply, r')) :
    (reply = .nothing ∨ ∃ type, reply = .value (.array type [])) ∧ (r' = r ∨ r' = r.restart) ∧
      (readsInput h.kind q.count = true → reply = .nothing ∧ r' = r) := by
  have hscalars : ∀ {type : ScalarType} {read : Stateful Reader type.Carrier}, Fails read r →
      readScalars s.options type q.count read r = (.ok reply, r') →
      (reply = .nothing ∨ ∃ type, reply = .value (.array type [])) ∧ (r' = r ∨ r' = r.restart) ∧
        (readsInput h.kind q.count = true → reply = .nothing ∧ r' = r) := by
    intro type read hfails hread
    obtain ⟨hreply, hr, hcount⟩ := readScalars_usedUp hstrict hleft hfails hread
    refine ⟨.inr ⟨type, hreply⟩, .inl hr, ?_⟩
    intro hneeds
    rw [readsInput_empty h.kind hcount] at hneeds
    cases hneeds
  rw [readValue] at hok
  cases hk : h.kind with
  | var => exact absurd hk hp.1
  | custom => exact absurd hk hp.2
  | opening | closing =>
    rw [hk] at hok
    cases hok
  | restart =>
    rw [hk] at hok
    cases hok
    refine ⟨.inl rfl, .inr rfl, ?_⟩
    cases q.count with
    | one => exact fun h => by cases h
    | exactly n => cases n <;> exact fun h => by cases h
    | untilEnd => exact fun h => by cases h
  | align =>
    rw [hk] at hok
    obtain ⟨n, r₁, hn, hrest⟩ := Stateful.of_bind_ok hok
    obtain ⟨_, r₂, halign, hpure⟩ := Stateful.of_bind_ok hrest
    obtain rfl := Head.nonNegative_source hn
    cases hpure
    have hsame := alignTo_usedUp hleft halign
    exact ⟨.inl rfl, .inl hsame, fun _ => ⟨rfl, hsame⟩⟩
  | skip =>
    rw [hk] at hok
    obtain ⟨n, r₁, hn, hrest⟩ := Stateful.of_bind_ok hok
    obtain ⟨_, r₂, hskip, hpure⟩ := Stateful.of_bind_ok hrest
    obtain rfl := Head.nonNegative_source hn
    cases hpure
    have hsame := Reader.skipBytes_usedUp hleft hskip
    exact ⟨.inl rfl, .inl hsame, fun _ => ⟨rfl, hsame⟩⟩
  | whole type =>
    rw [hk] at hok hscalars
    exact hscalars (fails_readWhole hleft q.order type) hok
  | bit =>
    rw [hk] at hok hscalars
    dsimp only at hok
    split at hok
    · exact hscalars (fails_readBits hleft _ q.count) hok
    · cases hok

/-- A run goes on without taking input or keeping a number. -/
structure Run.Idles (run run' : Run Reader) : Prop where
  readings : run'.readings = run.readings
  source : run'.source = run.source ∨ run'.source = run.source.restart

namespace Run.Idles
variable {run run' run'' : Run Reader}

theorem refl (run : Run Reader) : Idles run run := ⟨rfl, .inl rfl⟩

theorem trans (h : Idles run run') (h' : Idles run' run'') : Idles run run'' := by
  refine ⟨h'.readings.trans h.readings, ?_⟩
  rcases h.source with hs | hs <;> rcases h'.source with hs' | hs' <;> rw [hs', hs]
  · exact .inl rfl
  · exact .inr rfl
  · exact .inr rfl
  · exact .inr (Reader.restart_restart _)

theorem left (h : Idles run run') (hleft : run.source.left = 0) : run'.source.left = 0 := by
  rcases h.source with hs | hs <;> rw [hs]
  · exact hleft
  · exact Reader.left_restart hleft

end Run.Idles

/-- A body that idles on a used-up input. -/
def IdleBody (body : Stateful (Run Reader) Yield) : Prop :=
  ∀ run y run', run.source.left = 0 → body run = (.ok y, run') → y.halted = false ∧ run.Idles run'

namespace Declaration
variable {s : Setting Reader}

theorem readTimes_usedUp {body : Stateful (Run Reader) Yield} (hbody : IdleBody body) {n : Nat} {run run' : Run Reader}
    {x : List Record × Bool} (hleft : run.source.left = 0) (hok : readTimes body n run = (.ok x, run')) :
    x.2 = false ∧ run.Idles run' := by
  induction n generalizing run x with
  | zero =>
    cases hok
    exact ⟨rfl, .refl _⟩
  | succ n ih =>
    rw [readTimes_succ] at hok
    rcases hy : body run with ⟨fault | y, run₁⟩
    · rw [hy] at hok
      cases hok
    obtain ⟨hhalted, hidle⟩ := hbody run y run₁ hleft hy
    rcases hrest : readTimes body n run₁ with ⟨fault | ⟨items, halted⟩, run₂⟩
    · simp only [hy, hhalted, hrest] at hok
      cases hok
    simp only [hy, hhalted, hrest] at hok
    cases hok
    obtain ⟨hx, hidle'⟩ := ih (hidle.left hleft) hrest
    exact ⟨hx, hidle.trans hidle'⟩

theorem readElements_usedUp {body : Stateful (Run Reader) Yield} (hbody : IdleBody body) {options : ReadOptions}
    {count : ElementCount} {run run' : Run Reader} {x : Value × Bool} (hleft : run.source.left = 0)
    (hok : readElements options count body run = (.ok x, run')) : x.2 = false ∧ run.Idles run' := by
  cases count with
  | one =>
    rw [readElements_one] at hok
    rcases hy : body run with ⟨fault | y, run₁⟩
    · rw [hy] at hok
      cases hok
    rw [hy] at hok
    cases hok
    exact hbody run y _ hleft hy
  | exactly n =>
    rw [readElements_exactly] at hok
    rcases hx : readTimes body n run with ⟨fault | y, run₁⟩
    · rw [hx] at hok
      cases hok
    rw [hx] at hok
    cases hok
    exact readTimes_usedUp hbody hleft hx
  | untilEnd =>
    rw [readElements_untilEnd, readWhile, if_pos (show BitSource.left run.source = 0 from hleft)] at hok
    cases hok
    exact ⟨rfl, .refl _⟩

mutual

/-- From a used-up input a declaration is read without taking input or keeping a number. -/
theorem read_usedUp (hstrict : s.options.tolerant = false) : (d : Declaration) → d.Formed Head.Plain →
    ∀ (depth : Nat) (run : Run Reader) (y : Yield) (run' : Run Reader), run.source.left = 0 →
      d.read s depth run = (.ok y, run') → y.halted = false ∧ run.Idles run'
  | .single h, hf, depth, run, y, run', hleft, hok => by
    rw [read_single] at hok
    cases hq : (h.request s run).1 with
    | error fault =>
      rw [hq] at hok
      cases hok
    | ok q =>
      have hgo : s.stopsBefore h.kind q.count run = false := by simp [Setting.stopsBefore, hstrict]
      simp only [hq, hgo, Bool.false_eq_true, if_false, Head.readSingle_eq, hstrict, Bool.and_false] at hok
      rcases hv : h.readValue s q run.readings run.source with ⟨fault | reply, source⟩
      · rw [hv] at hok
        cases hok
      obtain ⟨hreply, hsource, -⟩ := Head.readValue_usedUp hstrict hf.1 hleft hv
      rw [hv] at hok
      rcases hreply with rfl | ⟨type, rfl⟩
      · cases hok
        exact ⟨rfl, rfl, hsource⟩
      · have hkeep : Setting.keepReading h.info (.array type []) { run with source } = { run with source } := by
          cases h.info <;> rfl
        dsimp only at hok
        rw [hkeep] at hok
        cases hok
        exact ⟨rfl, rfl, hsource⟩
  | .nested h members, hf, depth, run, y, run', hleft, hok => by
    rw [read_nested] at hok
    cases hq : (h.request s run).1 with
    | error fault =>
      rw [hq] at hok
      cases hok
    | ok q =>
      have hgo : s.stopsBefore h.kind q.count run = false := by simp [Setting.stopsBefore, hstrict]
      simp only [hq, hgo, Bool.false_eq_true, if_false] at hok
      by_cases hdepth : s.options.maxDepth < depth + 1
      · rw [if_pos hdepth] at hok
        cases hok
      rw [if_neg hdepth] at hok
      rcases hx : readElements s.options q.count (readAll s (depth + 1) members) run with ⟨fault | x, run₁⟩
      · rw [hx] at hok
        cases hok
      rw [hx] at hok
      cases hok
      exact readElements_usedUp (readAll_usedUp hstrict members hf.2.2 (depth + 1)) hleft hx

theorem readAll_usedUp (hstrict : s.options.tolerant = false) : (ds : List Declaration) → FormedAll Head.Plain ds →
    ∀ depth : Nat, IdleBody (readAll s depth ds)
  | [], _, _, run, y, run', _, hok => by
    cases hok
    exact ⟨rfl, .refl run⟩
  | d :: ds, hf, depth, run, y, run', hleft, hok => by
    rw [readAll_cons] at hok
    rcases hd : d.read s depth run with ⟨fault | first, run₁⟩
    · rw [hd] at hok
      cases hok
    obtain ⟨hhalted, hidle⟩ := read_usedUp hstrict d hf.1 depth run first run₁ hleft hd
    rcases hds : readAll s depth ds run₁ with ⟨fault | rest, run₂⟩
    · simp only [hd, hhalted, hds] at hok
      cases hok
    simp only [hd, hhalted, hds] at hok
    obtain ⟨hrest, hidle'⟩ := readAll_usedUp hstrict ds hf.2 depth run₁ rest run₂ (hidle.left hleft) hds
    cases hok
    exact ⟨hrest, hidle.trans hidle'⟩

end

end Declaration
end LayoutScript
