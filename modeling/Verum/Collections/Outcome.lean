variable {ε α β : Type}

@[simp] theorem okBind {v : α} {next : α → Except ε β} : (Except.ok v >>= next) = next v := rfl

theorem bindOk_iff {outcome : Except ε α} {next : α → Except ε β} {b : β} :
    (outcome >>= next) = .ok b ↔ ∃ a, outcome = .ok a ∧ next a = .ok b := by
  cases outcome with
  | error e => exact ⟨nofun, fun ⟨_, same, _⟩ => nomatch same⟩
  | ok a => exact ⟨fun run => ⟨a, rfl, run⟩, fun ⟨_, same, run⟩ => Except.ok.inj same ▸ run⟩

/-- A computation ends in a value that satisfies `post`, or in one of the allowed errors. -/
def Meets (allowed : ε → Prop) (outcome : Except ε α) (post : α → Prop) : Prop :=
  match outcome with
  | .ok value => post value
  | .error error => allowed error

namespace Meets

variable {allowed : ε → Prop} {outcome : Except ε α} {post : α → Prop}

theorem ok {v : α} (holds : post v) : Meets allowed (.ok v) post := holds

theorem error {failure : ε} (is_allowed : allowed failure) : Meets allowed (.error failure) post := is_allowed

theorem mono {post' : α → Prop} (meets : Meets allowed outcome post) (weaker : ∀ v, post v → post' v) :
    Meets allowed outcome post' := by
  cases outcome with
  | ok v => exact weaker v meets
  | error failure => exact meets

theorem bind {next : α → Except ε β} {last : β → Prop} (meets : Meets allowed outcome post)
    (continues : ∀ v, post v → Meets allowed (next v) last) : Meets allowed (outcome >>= next) last := by
  cases outcome with
  | ok v => exact continues v meets
  | error failure => exact meets

theorem ok_bind {v : α} {next : α → Except ε β} {last : β → Prop} (meets : Meets allowed (next v) last) :
    Meets allowed (.ok v >>= next) last := meets

end Meets
