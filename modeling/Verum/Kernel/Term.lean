import Mathlib.Algebra.BigOperators.Fin
import Mathlib.Algebra.Order.BigOperators.Group.Finset

namespace Kernel

inductive UniverseLevel where
  | concrete (level : UInt32)
  | variable (name : String)
  | succ (level : UniverseLevel)
  | max (left right : UniverseLevel)
  | prop
  deriving DecidableEq

structure SmtCertificate where
  schemaVersion : UInt32
  backend : String
  backendVersion : String
  trace : List UInt8
  obligationHash : String
  verumVersion : String
  createdAt : String
  metadata : List (String × String)
  deriving DecidableEq

structure FrameworkId where
  framework : String
  citation : String
  deriving DecidableEq

/-- The four constructs that bind a name in their second component. -/
inductive Binding where
  | pi | lam | sigma | refine
  deriving DecidableEq

/-- The constructs that bind no name, with the data each carries besides its subterms. -/
inductive Former where
  | constructor (owner name : String) (params args : Nat)
  | universeAt (level : UniverseLevel)
  | app | pair | fst | snd
  | pathTy | refl | pathOver | hComp | transport | glue
  | quotient | quotIntro | quotElim
  | inductiveType (path : String) (args : Nat)
  | elim (cases : Nat)
  | smtProof (certificate : SmtCertificate)
  | epsilonOf | alphaOf
  | modalBox | modalDiamond | modalBigAnd (args : Nat)
  | shape | flat | sharp
  deriving DecidableEq

@[reducible] def Former.arity : Former → Nat
  | .constructor _ _ params args => params + args
  | .universeAt _ | .smtProof _ => 0
  | .fst | .snd | .refl | .epsilonOf | .alphaOf | .modalBox | .modalDiamond => 1
  | .shape | .flat | .sharp => 1
  | .app | .pair | .transport | .quotient => 2
  | .pathTy | .hComp | .quotIntro => 3
  | .pathOver | .glue | .quotElim => 4
  | .inductiveType _ args => args
  | .elim cases => 2 + cases
  | .modalBigAnd args => args

instance neZeroOne : NeZero 1 := ⟨nofun⟩

instance neZeroTwo : NeZero 2 := ⟨nofun⟩

instance neZeroThree : NeZero 3 := ⟨nofun⟩

instance neZeroFour : NeZero 4 := ⟨nofun⟩

/-- `node` covers every construct without a binder; its arity fixes the number of subterms. -/
inductive CoreTerm where
  | var (name : String)
  | node (former : Former) (args : Fin former.arity → CoreTerm)
  | bind (binding : Binding) (binder : String) (domain body : CoreTerm)
  | axiomNode (name : String) (ty : CoreTerm) (framework : FrameworkId)

namespace CoreTerm

def constructor (owner name : String) (params args : List CoreTerm) : CoreTerm :=
  node (.constructor owner name params.length args.length)
    fun i => (params ++ args).get (i.cast (by simp))

def universeAt (level : UniverseLevel) : CoreTerm := node (.universeAt level) Fin.elim0

def pi (binder : String) (domain codomain : CoreTerm) : CoreTerm := bind .pi binder domain codomain

def lam (binder : String) (domain body : CoreTerm) : CoreTerm := bind .lam binder domain body

def app (f a : CoreTerm) : CoreTerm := node .app ![f, a]

def sigma (binder : String) (fstTy sndTy : CoreTerm) : CoreTerm := bind .sigma binder fstTy sndTy

def pair (a b : CoreTerm) : CoreTerm := node .pair ![a, b]

def fst (p : CoreTerm) : CoreTerm := node .fst ![p]

def snd (p : CoreTerm) : CoreTerm := node .snd ![p]

def pathTy (carrier lhs rhs : CoreTerm) : CoreTerm := node .pathTy ![carrier, lhs, rhs]

def refl (a : CoreTerm) : CoreTerm := node .refl ![a]

def pathOver (motive path lhs rhs : CoreTerm) : CoreTerm :=
  node .pathOver ![motive, path, lhs, rhs]

def hComp (phi walls base : CoreTerm) : CoreTerm := node .hComp ![phi, walls, base]

def transport (path value : CoreTerm) : CoreTerm := node .transport ![path, value]

def glue (carrier phi fiber equiv : CoreTerm) : CoreTerm := node .glue ![carrier, phi, fiber, equiv]

def refine (base : CoreTerm) (binder : String) (predicate : CoreTerm) : CoreTerm :=
  bind .refine binder base predicate

def quotient (base equiv : CoreTerm) : CoreTerm := node .quotient ![base, equiv]

def quotIntro (value base equiv : CoreTerm) : CoreTerm := node .quotIntro ![value, base, equiv]

def quotElim (scrutinee motive case respect : CoreTerm) : CoreTerm :=
  node .quotElim ![scrutinee, motive, case, respect]

def inductiveType (path : String) (args : List CoreTerm) : CoreTerm :=
  node (.inductiveType path args.length) args.get

def elim (scrutinee motive : CoreTerm) (cases : List CoreTerm) : CoreTerm :=
  node (.elim cases.length) fun i =>
    (scrutinee :: motive :: cases).get (i.cast (by simp only [Former.arity, List.length_cons]; omega))

def smtProof (certificate : SmtCertificate) : CoreTerm := node (.smtProof certificate) Fin.elim0

def epsilonOf (t : CoreTerm) : CoreTerm := node .epsilonOf ![t]

def alphaOf (t : CoreTerm) : CoreTerm := node .alphaOf ![t]

def modalBox (t : CoreTerm) : CoreTerm := node .modalBox ![t]

def modalDiamond (t : CoreTerm) : CoreTerm := node .modalDiamond ![t]

def modalBigAnd (args : List CoreTerm) : CoreTerm := node (.modalBigAnd args.length) args.get

def shape (t : CoreTerm) : CoreTerm := node .shape ![t]

def flat (t : CoreTerm) : CoreTerm := node .flat ![t]

def sharp (t : CoreTerm) : CoreTerm := node .sharp ![t]

def decEq : (a b : CoreTerm) → Decidable (a = b)
  | .var x, .var y =>
    if h : x = y then isTrue (congrArg var h) else isFalse (by simpa using h)
  | .node f as, .node g bs =>
    if h : f = g then by
      subst h
      exact
        have : ∀ i, Decidable (as i = bs i) := fun i => decEq (as i) (bs i)
        if same : ∀ i, as i = bs i then isTrue (congrArg (node f) (funext same))
        else isFalse fun equal => same fun i => congrFun (by injection equal) i
    else isFalse fun equal => h (by injection equal)
  | .bind k x a b, .bind l y c d =>
    if h : k = l ∧ x = y then
      match decEq a c, decEq b d with
      | isTrue left, isTrue right => isTrue (by rw [h.1, h.2, left, right])
      | isFalse left, _ => isFalse fun equal => left (by injection equal)
      | _, isFalse right => isFalse fun equal => right (by injection equal)
    else isFalse fun equal => h (by injection equal with left right; exact ⟨left, right⟩)
  | .axiomNode n s v, .axiomNode m t w =>
    if h : n = m ∧ v = w then
      match decEq s t with
      | isTrue same => isTrue (by rw [h.1, h.2, same])
      | isFalse different => isFalse fun equal => different (by injection equal)
    else isFalse fun equal => h (by injection equal with left _ right; exact ⟨left, right⟩)
  | .var _, .node .. | .var _, .bind .. | .var _, .axiomNode .. => isFalse nofun
  | .node .., .var _ | .node .., .bind .. | .node .., .axiomNode .. => isFalse nofun
  | .bind .., .var _ | .bind .., .node .. | .bind .., .axiomNode .. => isFalse nofun
  | .axiomNode .., .var _ | .axiomNode .., .node .. | .axiomNode .., .bind .. => isFalse nofun

instance : DecidableEq CoreTerm := decEq

def size : CoreTerm → Nat
  | .var _ => 1
  | .node f args => 1 + ∑ i : Fin f.arity, (args i).size
  | .bind _ _ domain body => 1 + domain.size + body.size
  | .axiomNode _ ty _ => 1 + ty.size

theorem size_pos (t : CoreTerm) : 0 < t.size := by
  cases t <;> simp only [size] <;> omega

theorem size_arg_lt (f : Former) (args : Fin f.arity → CoreTerm) (i : Fin f.arity) :
    (args i).size < (node f args).size := by
  have part : (args i).size ≤ ∑ j, (args j).size :=
    Finset.single_le_sum (f := fun j => (args j).size) (fun _ _ => Nat.zero_le _) (Finset.mem_univ i)
  simp only [size]
  omega

end CoreTerm

end Kernel
