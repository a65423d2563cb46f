/-
A thread that runs a list of operations, one at a time, between the steps of everybody else.

The operations act on a part `γ` of the state that no one else changes, so what holds between two of them still holds
when the next one comes. `Keeps apply I Q ops g`: from `g` on, `I` holds before and after every operation of `ops`, and
`Q` when they are done; an operation that is not possible ends the thread. The rules are those of a program logic:
`Keeps.append` for a sequence, `Keeps.loop` for a loop over a list, `Keeps.single` and `Keeps.cons` for one operation.
-/
import Mathlib.Tactic

namespace CS240.Lib

variable {γ ο : Type} {apply : γ → ο → Option γ} {I Q R : γ → Prop} {op : ο} {ops ops' : List ο} {g g' : γ}

def Keeps (apply : γ → ο → Option γ) (I Q : γ → Prop) : List ο → γ → Prop
  | [], g => I g ∧ Q g
  | op :: ops, g => I g ∧ ∀ g', apply g op = some g' → Keeps apply I Q ops g'

theorem Keeps.inv (hk : Keeps apply I Q ops g) : I g := by
  cases ops with
  | nil => exact hk.1
  | cons op ops => exact hk.1

theorem Keeps.cons (hI : I g) (hop : ∀ g', apply g op = some g' → Keeps apply I Q ops g') :
    Keeps apply I Q (op :: ops) g := ⟨hI, hop⟩

theorem Keeps.single (hI : I g) (hop : ∀ g', apply g op = some g' → I g' ∧ Q g') : Keeps apply I Q [op] g := ⟨hI, hop⟩

theorem Keeps.append (hk : Keeps apply I R ops g) (hR : ∀ g', I g' → R g' → Keeps apply I Q ops' g') :
    Keeps apply I Q (ops ++ ops') g := by
  induction ops generalizing g with
  | nil => exact hR g hk.1 hk.2
  | cons op ops ih => exact ⟨hk.1, fun g' hg' => ih (hk.2 g' hg')⟩

/-- `J done` holds when the loop has run for the elements of `done` -/
theorem Keeps.loop {α : Type} {J : List α → γ → Prop} {body : α → List ο} {xs : List α}
    (hbody : ∀ done x g, I g → J done g → Keeps apply I (J (done ++ [x])) (body x) g) (hI : I g) (h0 : J [] g) :
    Keeps apply I (J xs) (xs.flatMap body) g := by
  have hall : ∀ (rest done : List α) (g : γ), I g → J done g →
      Keeps apply I (J (done ++ rest)) (rest.flatMap body) g := by
    intro rest
    induction rest with
    | nil => intro done g hI hJ; exact ⟨hI, by rwa [List.append_nil]⟩
    | cons x rest ih =>
      intro done g hI hJ
      rw [List.flatMap_cons]
      refine (hbody done x g hI hJ).append fun g' hI' hJ' => ?_
      have hrest := ih (done ++ [x]) g' hI' hJ'
      rwa [List.append_assoc] at hrest
  exact hall xs [] g hI h0

end CS240.Lib
