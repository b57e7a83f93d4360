import Verum.Wire.Decoder

namespace Wire

variable {ε α β : Type}

/-- A successful run started inside the slice stays inside it and consumes at least `count` bytes. -/
def Advances (count : Nat) (decoder : Decoder ε α) : Prop :=
  ∀ (data : Slice) (offset : Nat) (value : α) (after : Nat), offset ≤ data.length →
    decoder data offset = .ok value after → offset + count ≤ after ∧ after ≤ data.length

def Faults (decoder : Decoder ε α) (data : Slice) (offset : Nat) : Prop :=
  ∃ fault, decoder data offset = .fault fault

/-- The run from `start` succeeds and leaves the read position at `stop`. -/
def Ends (decoder : Decoder ε α) (data : Slice) (start stop : Nat) : Prop :=
  ∃ value, decoder data start = .ok value stop

/-- A run started inside the slice stays inside it and never stops the process. -/
structure Safe (decoder : Decoder ε α) : Prop where
  stays : Advances 0 decoder
  noFault : ∀ data offset, offset ≤ data.length → ¬ Faults decoder data offset

variable {decoder item : Decoder ε α} {count : Nat} {next : α → Decoder ε β}

theorem Advances.weaken {lt : Nat} (run : Advances count decoder) (le : lt ≤ count) :
    Advances lt decoder := by
  intro data offset v after hin eq
  have hb := run data offset v after hin eq
  omega

theorem Advances.ends {start stop : Nat} {data : Slice} (run : Advances count decoder)
    (hin : start ≤ data.length) (ends : Ends decoder data start stop) :
    start + count ≤ stop ∧ stop ≤ data.length := by
  obtain ⟨v, eq⟩ := ends
  exact run data start v stop hin eq

theorem Advances.pure (v : α) : Advances 0 (Pure.pure v : Decoder ε α) := by
  intro data offset res after hin eq
  simp only [pure_run, Outcome.ok.injEq] at eq
  omega

theorem Advances.fail (count : Nat) (error : ε) : Advances count (Wire.fail error : Decoder ε α) := by
  intro data offset v after _ eq
  cases eq

theorem Advances.crash (count : Nat) (fault : Fault) : Advances count (Wire.crash fault : Decoder ε α) := by
  intro data offset v after _ eq
  cases eq

theorem Advances.bind {more : Nat} (head : Advances count decoder) (tail : ∀ v, Advances more (next v)) :
    Advances (count + more) (decoder >>= next) := by
  intro data offset v after hin eq
  obtain ⟨mid, at', fst, snd⟩ := bind_eq_ok eq
  have lower := head data offset mid at' hin fst
  have upper := tail mid data at' v after lower.2 snd
  omega

theorem Advances.bind_first (head : Advances count decoder) (tail : ∀ v, Advances 0 (next v)) :
    Advances count (decoder >>= next) :=
  head.bind tail

theorem Advances.bind_zero (head : Advances 0 decoder) (tail : ∀ v, Advances 0 (next v)) :
    Advances 0 (decoder >>= next) :=
  head.bind tail

theorem Advances.repeatN (each : Advances 0 item) (count : Nat) : Advances 0 (Wire.repeatN item count) := by
  induction count with
  | zero => exact Advances.pure []
  | succ count ih => exact each.bind fun head => ih.bind fun tail => Advances.pure (head :: tail)

section Faults

variable {data : Slice} {offset : Nat}

theorem not_faults_pure (v : α) : ¬ Faults (Pure.pure v : Decoder ε α) data offset := by
  rintro ⟨fault, eq⟩
  cases eq

theorem not_faults_fail (error : ε) : ¬ Faults (Wire.fail error : Decoder ε α) data offset := by
  rintro ⟨fault, eq⟩
  cases eq

variable {decoder : Decoder ε α} {next : α → Decoder ε β}

theorem faults_bind : Faults (decoder >>= next) data offset ↔
      Faults decoder data offset ∨
        ∃ v after, decoder data offset = .ok v after ∧ Faults (next v) data after := by
  unfold Faults
  simp only [bind_eq_fault]
  constructor
  · rintro ⟨fault, fst | ⟨v, after, run, snd⟩⟩
    · exact .inl ⟨fault, fst⟩
    · exact .inr ⟨v, after, run, fault, snd⟩
  · rintro (⟨fault, fst⟩ | ⟨v, after, run, fault, snd⟩)
    · exact ⟨fault, .inl fst⟩
    · exact ⟨fault, .inr ⟨v, after, run, snd⟩⟩

theorem faults_bind_safe (head : Safe decoder) (hin : offset ≤ data.length) :
    Faults (decoder >>= next) data offset ↔
      ∃ v after, decoder data offset = .ok v after ∧ Faults (next v) data after := by
  rw [faults_bind, or_iff_right (head.noFault data offset hin)]

theorem faults_bind_last (stays : Advances 0 decoder) (tail : ∀ v, Safe (next v))
    (hin : offset ≤ data.length) : Faults (decoder >>= next) data offset ↔ Faults decoder data offset := by
  rw [faults_bind, or_iff_left]
  rintro ⟨v, after, run, snd⟩
  exact (tail v).noFault data after (stays data offset v after hin run).2 snd

theorem faults_repeatN {item : Decoder ε α} (count : Nat) :
    Faults (Wire.repeatN item count) data offset ↔
      ∃ idx < count, ∃ after, Ends (Wire.repeatN item idx) data offset after ∧ Faults item data after := by
  induction count generalizing offset with
  | zero =>
    constructor
    · rintro ⟨fault, eq⟩
      cases eq
    · rintro ⟨idx, lt, _⟩
      omega
  | succ count ih =>
    have unfolded : Faults (Wire.repeatN item (count + 1)) data offset ↔
        Faults item data offset ∨
          ∃ v after, item data offset = .ok v after ∧ Faults (Wire.repeatN item count) data after := by
      refine faults_bind.trans (or_congr_right ?_)
      refine exists_congr fun v => exists_congr fun after => and_congr_right fun _ => ?_
      refine faults_bind.trans (or_iff_left ?_)
      rintro ⟨tail, stop, _, last⟩
      exact not_faults_pure _ last
    rw [unfolded]
    constructor
    · rintro (fst | ⟨v, after, run, hl⟩)
      · exact ⟨0, by omega, offset, ⟨[], rfl⟩, fst⟩
      · obtain ⟨idx, lt, stop, ⟨xs, ran⟩, last⟩ := ih.mp hl
        refine ⟨idx + 1, by omega, stop, ⟨v :: xs, ?_⟩, last⟩
        change (item >>= fun head => Wire.repeatN item idx >>= fun tail => Pure.pure (head :: tail)) data offset = _
        rw [bind_ok run, bind_ok ran]
        rfl
    · rintro ⟨idx, lt, stop, ⟨xs, ran⟩, last⟩
      cases idx with
      | zero =>
        simp only [Wire.repeatN, Decoder.pure, Outcome.ok.injEq] at ran
        rw [ran.2]
        exact .inl last
      | succ idx =>
        obtain ⟨v, after, run, rest⟩ := bind_eq_ok ran
        obtain ⟨tail, final, ran', done⟩ := bind_eq_ok rest
        simp only [Decoder.pure, Outcome.ok.injEq] at done
        rw [← done.2] at last
        exact .inr ⟨v, after, run, ih.mpr ⟨idx, by omega, final, ⟨tail, ran'⟩, last⟩⟩

end Faults

theorem Safe.pure (v : α) : Safe (Pure.pure v : Decoder ε α) :=
  ⟨Advances.pure v, fun _ _ _ => not_faults_pure v⟩

theorem Safe.fail (error : ε) : Safe (Wire.fail error : Decoder ε α) :=
  ⟨Advances.fail 0 error, fun _ _ _ => not_faults_fail error⟩

theorem Safe.bind (head : Safe decoder) (tail : ∀ v, Safe (next v)) : Safe (decoder >>= next) := by
  refine ⟨head.stays.bind_zero fun v => (tail v).stays, fun data offset hin => ?_⟩
  rw [faults_bind_last head.stays tail hin]
  exact head.noFault data offset hin

theorem Safe.bind_assoc {γ : Type} {last : β → Decoder ε γ} (head : Safe (decoder >>= next))
    (tail : ∀ v, Safe (last v)) : Safe (decoder >>= fun v => next v >>= last) := by
  rw [← Decoder.bind_assoc]
  exact head.bind tail

theorem Safe.repeatN (each : Safe item) (count : Nat) : Safe (Wire.repeatN item count) := by
  refine ⟨Advances.repeatN each.stays count, fun data offset hin => ?_⟩
  rw [faults_repeatN]
  rintro ⟨idx, _, after, ⟨xs, run⟩, last⟩
  exact each.noFault data after (Advances.repeatN each.stays idx data offset xs after hin run).2 last

theorem Safe.ite {condition : Prop} [Decidable condition] {fst snd : Decoder ε α} (left : Safe fst)
    (right : Safe snd) : Safe (if condition then fst else snd) := by
  split
  · exact left
  · exact right

section Agreement

/-- The two decoders do the same from `start` on. -/
def AgreeFrom (data : Slice) (start : Nat) (decoder decoder' : Decoder ε α) : Prop :=
  ∀ offset, start ≤ offset → offset ≤ data.length → decoder data offset = decoder' data offset

variable {data : Slice} {start : Nat}

theorem AgreeFrom.refl (decoder : Decoder ε α) : AgreeFrom data start decoder decoder := fun _ _ _ => rfl

theorem AgreeFrom.bind {decoder decoder' : Decoder ε α} {next next' : α → Decoder ε β}
    (head : AgreeFrom data start decoder decoder') (stays : Advances 0 decoder)
    (tail : ∀ v, AgreeFrom data start (next v) (next' v)) :
    AgreeFrom data start (decoder >>= next) (decoder' >>= next') := by
  intro offset le hin
  rw [bind_run, bind_run, ← head offset le hin]
  cases run : decoder data offset with
  | ok v after =>
    have hb := stays data offset v after hin run
    exact tail v after (by omega) hb.2
  | err error | fault fault => rfl

theorem AgreeFrom.repeatN {item item' : Decoder ε α} (each : AgreeFrom data start item item')
    (stays : Advances 0 item) (count : Nat) :
    AgreeFrom data start (Wire.repeatN item count) (Wire.repeatN item' count) := by
  induction count with
  | zero => exact AgreeFrom.refl _
  | succ count ih =>
    exact each.bind stays fun head => ih.bind (stays.repeatN count) fun tail => AgreeFrom.refl _

theorem AgreeFrom.ite {condition : Prop} [Decidable condition] {fst first' snd second' : Decoder ε α}
    (left : AgreeFrom data start fst first') (right : AgreeFrom data start snd second') :
    AgreeFrom data start (if condition then fst else snd) (if condition then first' else second') := by
  split
  · exact left
  · exact right

end Agreement

section Ends

variable {data : Slice} {start stop : Nat}

theorem ends_pure {v : α} : Ends (Pure.pure v : Decoder ε α) data start stop ↔ start = stop := by
  constructor
  · rintro ⟨_, run⟩
    cases run
    rfl
  · rintro rfl
    exact ⟨v, rfl⟩

variable {decoder item : Decoder ε α} {next : α → Decoder ε β} {tail : Nat → Prop} {count : Nat}

theorem ends_bind : Ends (decoder >>= next) data start stop ↔
      ∃ v mid, decoder data start = .ok v mid ∧ Ends (next v) data mid stop := by
  constructor
  · rintro ⟨v, run⟩
    obtain ⟨fst, mid, head, tail⟩ := bind_eq_ok run
    exact ⟨fst, mid, head, v, tail⟩
  · rintro ⟨fst, mid, head, v, tail⟩
    exact ⟨v, by rw [bind_ok head, tail]⟩

theorem ends_map {res : α → β} :
    Ends (decoder >>= fun v => Pure.pure (res v)) data start stop ↔ Ends decoder data start stop := by
  rw [ends_bind]
  constructor
  · rintro ⟨v, mid, head, last⟩
    rw [ends_pure.mp last] at head
    exact ⟨v, head⟩
  · rintro ⟨v, head⟩
    exact ⟨v, stop, head, ends_pure.mpr rfl⟩

theorem ends_bind_any (rest : ∀ v mid, Ends (next v) data mid stop ↔ tail mid) :
    Ends (decoder >>= next) data start stop ↔ ∃ mid, Ends decoder data start mid ∧ tail mid := by
  rw [ends_bind]
  constructor
  · rintro ⟨v, mid, head, last⟩
    exact ⟨mid, ⟨v, head⟩, (rest v mid).mp last⟩
  · rintro ⟨mid, ⟨v, head⟩, last⟩
    exact ⟨v, mid, head, (rest v mid).mpr last⟩

theorem ends_repeatN_succ : Ends (Wire.repeatN item (count + 1)) data start stop ↔
      ∃ mid, Ends item data start mid ∧ Ends (Wire.repeatN item count) data mid stop := by
  refine ends_bind_any fun head mid => ?_
  refine (ends_bind_any fun tail last => ends_pure).trans ?_
  simp

theorem ends_repeatN_last : Ends (Wire.repeatN item (count + 1)) data start stop ↔
      ∃ mid, Ends (Wire.repeatN item count) data start mid ∧ Ends item data mid stop := by
  induction count generalizing start with
  | zero =>
    rw [ends_repeatN_succ]
    have none : ∀ {a b}, Ends (Wire.repeatN item 0) data a b ↔ a = b := ends_pure
    simp [none]
  | succ count ih =>
    rw [ends_repeatN_succ]
    constructor
    · rintro ⟨mid, head, rest⟩
      obtain ⟨last, init, final⟩ := ih.mp rest
      exact ⟨last, ends_repeatN_succ.mpr ⟨mid, head, init⟩, final⟩
    · rintro ⟨last, init, final⟩
      obtain ⟨mid, head, rest⟩ := ends_repeatN_succ.mp init
      exact ⟨mid, head, ih.mpr ⟨last, rest, final⟩⟩

theorem faults_bind_any (stays : Advances 0 decoder) (hin : start ≤ data.length)
    (rest : ∀ v mid, mid ≤ data.length → (Faults (next v) data mid ↔ tail mid)) :
    Faults (decoder >>= next) data start ↔
      Faults decoder data start ∨ ∃ mid, Ends decoder data start mid ∧ tail mid := by
  rw [faults_bind]
  refine or_congr_right ⟨?_, ?_⟩
  · rintro ⟨v, mid, run, last⟩
    exact ⟨mid, ⟨v, run⟩, (rest v mid (stays data start v mid hin run).2).mp last⟩
  · rintro ⟨mid, ⟨v, run⟩, last⟩
    exact ⟨v, mid, run, (rest v mid (stays data start v mid hin run).2).mpr last⟩

theorem faults_bind_safe_any (head : Safe decoder) (hin : start ≤ data.length)
    (rest : ∀ v mid, mid ≤ data.length → (Faults (next v) data mid ↔ tail mid)) :
    Faults (decoder >>= next) data start ↔ ∃ mid, Ends decoder data start mid ∧ tail mid := by
  rw [faults_bind_any head.stays hin rest, or_iff_right (head.noFault data start hin)]

theorem faults_repeatN_last : Faults (Wire.repeatN item (count + 1)) data start ↔
      Faults (Wire.repeatN item count) data start ∨
        ∃ mid, Ends (Wire.repeatN item count) data start mid ∧ Faults item data mid := by
  rw [faults_repeatN, faults_repeatN]
  constructor
  · rintro ⟨idx, lt, mid, ends, last⟩
    rcases Nat.lt_succ_iff_lt_or_eq.mp lt with less | rfl
    · exact .inl ⟨idx, less, mid, ends, last⟩
    · exact .inr ⟨mid, ends, last⟩
  · rintro (⟨idx, lt, rest⟩ | ⟨mid, ends, last⟩)
    · exact ⟨idx, by omega, rest⟩
    · exact ⟨count, by omega, mid, ends, last⟩

end Ends

end Wire
