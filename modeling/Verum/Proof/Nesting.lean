import Verum.Proof.Admission
import Verum.Proof.Whnf

open List

namespace Proof

open Json.Tree

open Json (Tree)
open Json.ByteText

section Scanner

variable {maxNesting : Nat} {containers : List UInt8}

def isPlain (b : UInt8) : Bool := b ≠ 0x22 && b ≠ 0x5B && b ≠ 0x5D && b ≠ 0x7B && b ≠ 0x7D

theorem envelopeLoop_plain {text : List UInt8} (plain : ∀ b ∈ text, isPlain b = true) (rest : List UInt8) :
    envelopeLoop maxNesting containers false false (text ++ rest) =
      envelopeLoop maxNesting containers false false rest := by
  induction text with
  | nil => rfl
  | cons b text ih =>
    have isByte := plain b (by simp)
    simp only [isPlain, Bool.and_eq_true, decide_eq_true_eq] at isByte
    obtain ⟨⟨⟨⟨quote, bracket⟩, bracket'⟩, brace⟩, brace'⟩ := isByte
    rw [cons_append, envelopeLoop]
    simp only [Bool.false_eq_true, if_false, quote, bracket, bracket', brace, brace', or_self]
    exact ih fun next mem => plain next (.tail _ mem)

theorem blank_plain {text : List UInt8} (blank : Blank text) : ∀ b ∈ text, isPlain b = true := by
  intro b mem
  have isByte := blank b mem
  simp only [isBlank, Bool.or_eq_true, decide_eq_true_eq] at isByte
  rcases isByte with ((rfl | rfl) | rfl) | rfl <;> decide

theorem isHex_plain {b : UInt8} (hex : isHex b = true) : b ≠ 0x22 ∧ b ≠ 0x5C := by
  constructor <;> rintro rfl <;> exact absurd hex (by decide)

theorem envelopeLoop_quoted {b : UInt8} (quote : b ≠ 0x22) (backslash : b ≠ 0x5C) (rest : List UInt8) :
    envelopeLoop maxNesting containers true false (b :: rest) = envelopeLoop maxNesting containers true false rest := by
  rw [envelopeLoop]
  simp only [if_true, Bool.false_eq_true, if_false, quote, backslash]

theorem envelopeLoop_escaped (b : UInt8) (rest : List UInt8) :
    envelopeLoop maxNesting containers true false (0x5C :: b :: rest) =
      envelopeLoop maxNesting containers true false rest := by
  rw [envelopeLoop, envelopeLoop]
  rfl

theorem envelopeLoop_string {body : List UInt8} (string : StringBody body) (rest : List UInt8) :
    envelopeLoop maxNesting containers true false (body ++ rest) =
      envelopeLoop maxNesting containers false false rest := by
  induction string with
  | close =>
    rw [cons_append, envelopeLoop]
    rfl
  | unescaped _ quote backslash _ ih =>
    rw [cons_append, envelopeLoop_quoted quote backslash]
    exact ih
  | escape _ _ ih =>
    rw [cons_append, cons_append, envelopeLoop_escaped]
    exact ih
  | unicode hex₁ hex₂ hex₃ hex₄ _ ih =>
    simp only [cons_append]
    rw [envelopeLoop_escaped, envelopeLoop_quoted (isHex_plain hex₁).1 (isHex_plain hex₁).2,
      envelopeLoop_quoted (isHex_plain hex₂).1 (isHex_plain hex₂).2,
      envelopeLoop_quoted (isHex_plain hex₃).1 (isHex_plain hex₃).2,
      envelopeLoop_quoted (isHex_plain hex₄).1 (isHex_plain hex₄).2]
    exact ih

theorem envelopeLoop_open {b : UInt8} (opens : b = 0x7B ∨ b = 0x5B) (rest : List UInt8) :
    envelopeLoop maxNesting containers false false (b :: rest) =
      if containers.length = maxNesting then .error (.exhausted "json_depth_limit")
      else envelopeLoop maxNesting (b :: containers) false false rest := by
  rw [envelopeLoop]
  rcases opens with rfl | rfl <;> rfl

theorem envelopeLoop_close {opened hc : UInt8} (pair : (opened = 0x7B ∧ hc = 0x7D) ∨ (opened = 0x5B ∧ hc = 0x5D))
    (rest : List UInt8) :
    envelopeLoop maxNesting (opened :: containers) false false (hc :: rest) =
      envelopeLoop maxNesting containers false false rest := by
  rw [envelopeLoop]
  rcases pair with ⟨rfl, rfl⟩ | ⟨rfl, rfl⟩ <;> rfl

def isNumeric (c : Char) : Bool := Json.Grammar.isDigit c || c = '-' || c = '+' || c = '.' || c = 'e' || c = 'E'

theorem digits_numeric {text : List Char} (all : ∀ c ∈ text, Json.Grammar.isDigit c = true) :
    ∀ c ∈ text, isNumeric c = true := by
  intro c mem
  unfold isNumeric
  rw [all c mem]
  rfl

theorem number_numeric {text : List Char} {isFloat : Bool} (num : Json.Grammar.NumberText text isFloat) :
    ∀ c ∈ text, isNumeric c = true := by
  obtain ⟨minus, int, frac, exp, isMinus, isInt, isFrac, isExp, rfl, -⟩ := num
  intro c mem
  simp only [mem_append] at mem
  rcases mem with mem | mem | mem | mem
  · rcases isMinus with rfl | rfl
    · cases mem
    · rw [mem_singleton.mp mem]
      decide
  · cases isInt with
    | zero =>
      rw [mem_singleton.mp mem]
      decide
    | digits digit _ all =>
      refine digits_numeric (fun d listed => ?_) c mem
      exact (mem_cons.mp listed).elim (· ▸ digit) (all d)
  · cases isFrac with
    | none => cases mem
    | some digits =>
      rcases mem_cons.mp mem with rfl | hl
      · decide
      · exact digits_numeric digits.2 c hl
  · cases isExp with
    | none => cases mem
    | some letter sign digits =>
      rcases mem_cons.mp mem with rfl | hl
      · rcases letter with rfl | rfl <;> decide
      · rcases mem_append.mp hl with signed | listed
        · rcases sign with rfl | rfl | rfl
          · cases signed
          · rw [mem_singleton.mp signed]
            decide
          · rw [mem_singleton.mp signed]
            decide
        · exact digits_numeric digits.2 c listed

theorem numeric_plain {c : Char} (numeric : isNumeric c = true) :
    c.toNat < 0x80 ∧ isPlain c.toNat.toUInt8 = true := by
  simp only [isNumeric, Bool.or_eq_true, decide_eq_true_eq] at numeric
  rcases numeric with ((((digit | rfl) | rfl) | rfl) | rfl) | rfl
  · rw [Json.Parser.isDigit_iff] at digit
    have all : ∀ n : Fin 10, isPlain (0x30 + n.val).toUInt8 = true := by decide
    have isByte := all ⟨c.toNat - 0x30, by omega⟩
    have eq : 0x30 + (c.toNat - 0x30) = c.toNat := by omega
    rw [eq] at isByte
    exact ⟨by omega, isByte⟩
  all_goals decide

theorem number_plain {text : List Char} {isFloat : Bool} (num : Json.Grammar.NumberText text isFloat) :
    ∀ b ∈ Utf8.encode text, isPlain b = true := by
  intro b mem
  obtain ⟨c, listed, isByte⟩ := mem_flatMap.mp mem
  obtain ⟨low, plain⟩ := numeric_plain (number_numeric num c listed)
  rw [Utf8.encodeChar_ascii low] at isByte
  rw [mem_singleton.mp isByte]
  exact plain

theorem envelopeLoop_bracketed {n : Nat} {opened hc : UInt8} {text : List UInt8}
    (pair : (opened = 0x7B ∧ hc = 0x7D) ∨ (opened = 0x5B ∧ hc = 0x5D)) (hw : containers.length ≤ maxNesting)
    (inner : ∀ rest, containers.length < maxNesting →
      envelopeLoop maxNesting (opened :: containers) false false (text ++ rest) =
        if containers.length + 1 + n ≤ maxNesting then envelopeLoop maxNesting (opened :: containers) false false rest
        else .error (.exhausted "json_depth_limit")) (rest : List UInt8) :
    envelopeLoop maxNesting containers false false (opened :: (text ++ [hc]) ++ rest) =
      if containers.length + (n + 1) ≤ maxNesting then envelopeLoop maxNesting containers false false rest
      else .error (.exhausted "json_depth_limit") := by
  have opens : opened = 0x7B ∨ opened = 0x5B := pair.imp And.left And.left
  rw [cons_append, envelopeLoop_open opens]
  by_cases full : containers.length = maxNesting
  · rw [if_pos full, if_neg (by omega)]
  · have regroup : containers.length + (n + 1) = containers.length + 1 + n := by omega
    rw [if_neg full, append_assoc, inner _ (Nat.lt_of_le_of_ne hw full), regroup, singleton_append,
      envelopeLoop_close pair]

theorem deeper_of_two {α : Type} {k n m limit : Nat} (first snd : α) :
    (if k + n ≤ limit then if k + m ≤ limit then first else snd else snd) =
      if k + max n m ≤ limit then first else snd := by
  split_ifs <;> first | rfl | omega

theorem envelopeLoop_derives {part : Part} {n : Nat} {text : List UInt8} (derives : Derives part n text)
    (hw : containers.length ≤ maxNesting) (rest : List UInt8) :
    envelopeLoop maxNesting containers false false (text ++ rest) =
      if containers.length + n ≤ maxNesting then envelopeLoop maxNesting containers false false rest
      else .error (.exhausted "json_depth_limit") := by
  have comma : ∀ b ∈ [(0x2C : UInt8)], isPlain b = true := all_eq_true.mp rfl
  have colon : ∀ b ∈ [(0x3A : UInt8)], isPlain b = true := all_eq_true.mp rfl
  induction derives generalizing containers rest with
  | null | true | false =>
    rw [if_pos (by omega)]
    exact envelopeLoop_plain (all_eq_true.mp rfl) rest
  | number number =>
    rw [if_pos (by omega)]
    exact envelopeLoop_plain (number_plain number) rest
  | string body =>
    rw [if_pos (by omega), cons_append, envelopeLoop]
    exact envelopeLoop_string body rest
  | emptyArray blank =>
    refine envelopeLoop_bracketed (.inr ⟨rfl, rfl⟩) hw (fun rest room => ?_) rest
    rw [if_pos (by omega)]
    exact envelopeLoop_plain (blank_plain blank) rest
  | array elems ih =>
    refine envelopeLoop_bracketed (.inr ⟨rfl, rfl⟩) hw (fun rest room => ?_) rest
    exact @ih (0x5B :: containers) room rest
  | emptyObject blank =>
    refine envelopeLoop_bracketed (.inl ⟨rfl, rfl⟩) hw (fun rest room => ?_) rest
    rw [if_pos (by omega)]
    exact envelopeLoop_plain (blank_plain blank) rest
  | object ms ih =>
    refine envelopeLoop_bracketed (.inl ⟨rfl, rfl⟩) hw (fun rest room => ?_) rest
    exact @ih (0x7B :: containers) room rest
  | padded blank v blank' ih =>
    rw [append_assoc, envelopeLoop_plain (blank_plain blank), append_assoc, ih hw,
      envelopeLoop_plain (blank_plain blank')]
  | lastElement element ih => exact ih hw rest
  | moreElements element elems ih ih' | moreMembers member ms ih ih' =>
    rw [append_assoc, ih hw, cons_append, ← singleton_append, envelopeLoop_plain comma, ih' hw]
    exact deeper_of_two _ _
  | lastMember blank key blank' v ih =>
    rw [append_assoc, envelopeLoop_plain (blank_plain blank), append_assoc, cons_append, envelopeLoop]
    refine (envelopeLoop_string key _).trans ?_
    rw [append_assoc, envelopeLoop_plain (blank_plain blank'), cons_append, ← singleton_append,
      envelopeLoop_plain colon, ih hw]

theorem jsonEnvelope_document {n : Nat} {text : List UInt8} (document : Document n text) :
    jsonEnvelope text maxNesting = if n ≤ maxNesting then .ok () else .error (.exhausted "json_depth_limit") := by
  have scanned := @envelopeLoop_derives maxNesting [] _ _ _ document (Nat.zero_le _) []
  rw [append_nil, length_nil, Nat.zero_add] at scanned
  exact scanned

end Scanner

section Heights

/-- A node with at most this many generations, itself included. -/
inductive Shallow : Nat → Node → Prop where
  | node {n : Nat} {node : Node} : (∀ child ∈ node.children, Shallow n child) → Shallow (n + 1) node

theorem admitLoop_cons {limits : AdmissionLimits} {fuel d n : Nat} {node : Node} {queue : List (Node × Nat)}
    (admitted : admitLoop limits (fuel + 1) ((node, d) :: queue) n = .ok ()) :
    d ≤ limits.maxDepth ∧ node.unbound = false ∧
      ∃ n, admitLoop limits fuel ((node.children.map (·, d + 1)).reverse ++ queue) n = .ok () := by
  simp only [admitLoop, bind_eq_ok] at admitted
  obtain ⟨count', -, admitted⟩ := admitted
  by_cases deep : limits.maxDepth < d
  · rw [if_pos deep] at admitted
    cases admitted
  rw [if_neg deep] at admitted
  cases unbound : node.unbound with
  | true =>
    rw [unbound, if_pos rfl] at admitted
    cases admitted
  | false =>
    rw [unbound, if_neg Bool.false_ne_true, bind_eq_ok] at admitted
    obtain ⟨count'', -, admitted⟩ := admitted
    exact ⟨Nat.not_lt.mp deep, rfl, count'', admitted⟩

theorem admitLoop_shallow {limits : AdmissionLimits} {fuel n : Nat} {queue : List (Node × Nat)}
    (admitted : admitLoop limits fuel queue n = .ok ()) {node : Node} {d : Nat} (mem : (node, d) ∈ queue) :
    d ≤ limits.maxDepth ∧ Shallow (limits.maxDepth + 1 - d) node := by
  induction fuel generalizing queue n node d with
  | zero =>
    cases queue with
    | nil => cases mem
    | cons fst queue => cases admitted
  | succ fuel ih =>
    cases queue with
    | nil => cases mem
    | cons fst queue =>
      obtain ⟨top, lvl⟩ := fst
      obtain ⟨hw, -, count', admitted⟩ := admitLoop_cons admitted
      have each : ∀ child ∈ top.children, lvl + 1 ≤ limits.maxDepth ∧ Shallow (limits.maxDepth + 1 - (lvl + 1)) child := by
        intro child listed
        refine ih admitted (mem_append_left _ ?_)
        rw [mem_reverse]
        exact mem_map_of_mem (f := (·, lvl + 1)) listed
      rcases mem_cons.mp mem with eq | hl
      · cases eq
        have room : limits.maxDepth + 1 - d = limits.maxDepth + 1 - (d + 1) + 1 := by omega
        rw [room]
        exact ⟨hw, .node fun child listed => (each child listed).2⟩
      · exact ih admitted (mem_append_right _ hl)

def Node.toJson : Node → Tree
  | .term t _ => t.toJson
  | .level l => l.toJson

theorem termsToJson_eq (terms : List Term) : termsToJson terms = terms.map Term.toJson := by
  induction terms with
  | nil => rfl
  | cons term rest ih => rw [termsToJson, ih, map_cons]

theorem fieldsToJson_eq (fs : List DataField) : fieldsToJson fs = fs.map DataField.toJson := by
  induction fs with
  | nil => rfl
  | cons field rest ih => rw [fieldsToJson, ih, map_cons]

theorem constructorsToJson_eq (ctors : List DataConstructor) :
    constructorsToJson ctors = ctors.map DataConstructor.toJson := by
  induction ctors with
  | nil => rfl
  | cons constructor rest ih => rw [constructorsToJson, ih, map_cons]

theorem mem_termNodes {terms : List Term} {t : Term} (mem : t ∈ terms) (binders step : Nat) :
    ∃ scope, Node.term t scope ∈ termNodes terms binders step := by
  obtain ⟨idx, hin, rfl⟩ := mem_iff_getElem.mp mem
  refine ⟨binders + step * idx, mem_mapIdx.mpr ⟨idx, hin, rfl⟩⟩

variable {bound : Nat}

def Fits (bound : Nat) (nodes : List Node) : Prop := ∀ node ∈ nodes, node.toJson.nesting ≤ bound

theorem Fits.terms {terms : List Term} {binders step : Nat} (hf : Fits bound (termNodes terms binders step)) :
    nestingItems (termsToJson terms) ≤ bound := by
  refine nestingItems_le fun item mem => ?_
  rw [termsToJson_eq] at mem
  obtain ⟨t, listed, rfl⟩ := mem_map.mp mem
  obtain ⟨scope, node⟩ := mem_termNodes listed binders step
  exact hf _ node

theorem Fits.field {field : DataField} {binders idx : Nat} (hf : Fits bound (fieldNodes binders idx field)) :
    field.toJson.nesting ≤ bound + 2 := by
  cases field with
  | value ty | dependent ty =>
    have inner : ty.toJson.nesting ≤ bound := hf _ (mem_singleton_self _)
    simp only [DataField.toJson, variant, nesting, nestingMembers]
    omega
  | recursive => exact Nat.zero_le _
  | recursiveAt idxs =>
    have inner := Fits.terms hf
    simp only [DataField.toJson, variant, nesting, nestingMembers]
    omega

theorem Fits.constructor {constructor : DataConstructor} {binders : Nat}
    (hf : Fits bound (constructorNodes binders constructor)) : constructor.toJson.nesting ≤ bound + 4 := by
  obtain ⟨fs, idxs⟩ := constructor
  have indexed : nestingItems (termsToJson idxs) ≤ bound :=
    Fits.terms fun node mem => hf node (mem_append_left _ mem)
  have listed : nestingItems (fieldsToJson fs) ≤ bound + 2 := by
    refine nestingItems_le fun item mem => ?_
    rw [fieldsToJson_eq] at mem
    obtain ⟨field, among, rfl⟩ := mem_map.mp mem
    obtain ⟨idx, hin, rfl⟩ := mem_iff_getElem.mp among
    apply @field bound fs[idx] binders idx
    intro node isNode
    apply hf node
    apply mem_append_right
    exact mem_flatten.mpr ⟨_, mem_mapIdx.mpr ⟨idx, hin, rfl⟩, isNode⟩
  unfold DataConstructor.toJson
  split
  · simp only [nesting]
    omega
  · simp only [nesting, nestingMembers]
    omega

theorem Fits.constructors {ctors : List DataConstructor} {binders : Nat}
    (hf : Fits bound (ctors.map (constructorNodes binders)).flatten) :
    nestingItems (constructorsToJson ctors) ≤ bound + 4 := by
  refine nestingItems_le fun item mem => ?_
  rw [constructorsToJson_eq] at mem
  obtain ⟨constructor, among, rfl⟩ := mem_map.mp mem
  refine @Fits.constructor bound constructor binders fun node isNode => hf node ?_
  exact mem_flatten.mpr ⟨_, mem_map_of_mem among, isNode⟩

theorem nesting_term (t : Term) {binders : Nat} (hf : Fits bound (Node.term t binders).children) :
    t.toJson.nesting ≤ bound + 7 := by
  have child : ∀ {next : Term} (scope : Nat), Node.term next scope ∈ (Node.term t binders).children →
      next.toJson.nesting ≤ bound := fun scope mem => hf _ mem
  cases t with
  | data name lvl idxs ctors =>
    have onLevel : lvl.toJson.nesting ≤ bound := hf (.level lvl) (by simp [Node.children])
    have onIndices := @Fits.terms bound idxs binders 1
      fun node mem => hf node (by simp [Node.children, mem])
    have onConstructors := @Fits.constructors bound ctors binders
      fun node mem => hf node (mem_append_right _ mem)
    unfold Term.toJson variant
    split
    · simp only [nesting, nestingMembers, append_nil, cons_append, nil_append]
      omega
    · simp only [nesting, nestingMembers, cons_append, nil_append]
      omega
  | construct data constructor args =>
    have onData := @child data binders (by simp [Node.children])
    have onArgs := @Fits.terms bound args binders 0
      fun node mem => hf node (by simp [Node.children, mem])
    simp only [Term.toJson, variant, nesting, nestingMembers]
    omega
  | induct scrut motive cases =>
    have onScrutinee := @child scrut binders (by simp [Node.children])
    have onMotive := @child motive binders (by simp [Node.children])
    have onCases := @Fits.terms bound cases binders 0
      fun node mem => hf node (by simp [Node.children, mem])
    simp only [Term.toJson, variant, nesting, nestingMembers]
    omega
  | var idx =>
    simp only [Term.toJson, variant, nesting, nestingMembers]
    omega
  | «universe» lvl =>
    have onLevel : lvl.toJson.nesting ≤ bound := hf (.level lvl) (by simp [Node.children])
    simp only [Term.toJson, variant, nesting, nestingMembers]
    omega
  | letIn a b | pi a b | lam a b | sigma a b =>
    have onFirst := @child a binders (by simp [Node.children])
    have onSecond := @child b (binders + 1) (by simp [Node.children])
    simp only [Term.toJson, variant, nesting, nestingMembers, nestingItems]
    omega
  | app a b | pair a b =>
    have onFirst := @child a binders (by simp [Node.children])
    have onSecond := @child b binders (by simp [Node.children])
    simp only [Term.toJson, variant, nesting, nestingMembers, nestingItems]
    omega
  | fst a | snd a | refl a =>
    have onOnly := @child a binders (by simp [Node.children])
    simp only [Term.toJson, variant, nesting, nestingMembers]
    omega
  | id a b c | j a b c | idElim a b c =>
    have onFirst := @child a binders (by simp [Node.children, termNodes])
    have onSecond := @child b binders (by simp [Node.children, termNodes])
    have onThird := @child c binders (by simp [Node.children, termNodes])
    simp only [Term.toJson, variant, nesting, nestingMembers]
    omega
  | funExt a b c d =>
    have onFirst := @child a binders (by simp [Node.children, termNodes])
    have onSecond := @child b binders (by simp [Node.children, termNodes])
    have onThird := @child c binders (by simp [Node.children, termNodes])
    have onFourth := @child d binders (by simp [Node.children, termNodes])
    simp only [Term.toJson, variant, nesting, nestingMembers]
    omega

theorem nesting_node {node : Node} (fits : Fits bound node.children) : node.toJson.nesting ≤ bound + 7 := by
  cases node with
  | level l =>
    cases l with
    | concrete n | var name =>
      simp [Node.toJson, Level.toJson, variant, nesting, nestingMembers]
    | succ inner =>
      have hlt : inner.toJson.nesting ≤ bound := fits (.level inner) (mem_singleton_self _)
      simp only [Node.toJson, Level.toJson, variant, nesting, nestingMembers]
      omega
    | max a b =>
      have left : a.toJson.nesting ≤ bound := fits (.level a) (by simp [Node.children])
      have right : b.toJson.nesting ≤ bound := fits (.level b) (by simp [Node.children])
      simp only [Node.toJson, Level.toJson, variant, nesting, nestingMembers,
        nestingItems]
      omega
    | offset base amount =>
      have hlt : base.toJson.nesting ≤ bound := fits (.level base) (mem_singleton_self _)
      simp only [Node.toJson, Level.toJson, variant, nesting, nestingMembers,
        nestingItems]
      omega
  | term t binders =>
    exact nesting_term t fits

theorem nesting_shallow {n : Nat} {node : Node} (shallow : Shallow n node) : node.toJson.nesting ≤ 7 * n := by
  induction shallow with
  | node _ ih => exact nesting_node ih

end Heights

section Budget

theorem jsonNestingLimit_eq {limits : AdmissionLimits} (valid : limits.isValid = true) :
    limits.jsonNestingLimit = some ((limits.maxDepth + 1) * 8 + 8) := by
  have isSome := (Bool.and_eq_true_iff.mp valid).1
  unfold AdmissionLimits.jsonNestingLimit checkedUsize at *
  simp only [Option.bind_eq_bind] at *
  split at isSome
  · rw [if_pos (by assumption)] at *
    simp only [Option.bind_some] at *
    split at isSome
    · rw [if_pos (by assumption)] at *
      simp only [Option.bind_some] at *
      split at isSome
      · rw [if_pos (by assumption)] at *
      · cases isSome
    · cases isSome
  · cases isSome

theorem nesting_judgment {judgment : Judgment} {limits : AdmissionLimits}
    (admitted : admitStructure judgment limits = .ok ()) :
    judgment.toJson.nesting ≤ (limits.maxDepth + 1) * 8 + 8 := by
  have each : ∀ t ∈ [judgment.certificate.claimedType, judgment.certificate.term, judgment.statement],
      t.toJson.nesting ≤ 7 * (limits.maxDepth + 1) := by
    intro t mem
    have queued : Shallow (limits.maxDepth + 1) (.term t 0) := by
      refine (@admitLoop_shallow limits _ _ _ admitted (.term t 0) 0 ?_).2
      simp only [mem_cons, not_mem_nil, or_false] at mem
      rcases mem with rfl | rfl | rfl <;> simp
    exact nesting_shallow queued
  have onType := each judgment.certificate.claimedType (by simp)
  have onTerm := each judgment.certificate.term (by simp)
  have onStatement := each judgment.statement (by simp)
  have onMetadata : nestingMembers
      (judgment.certificate.metadata.map fun member => (member.1, Tree.string member.2)) ≤ 0 := by
    refine nestingMembers_le fun member mem => ?_
    obtain ⟨pair, -, rfl⟩ := mem_map.mp mem
    exact Nat.le_refl 0
  simp only [Judgment.toJson, Certificate.toJson, nesting, nestingMembers]
  omega

/-- The nesting budget admits what the structural limits admit, and the scan for it is exact. -/
theorem jsonEnvelope_exact :
    (∀ (limits : AdmissionLimits) (judgment : Judgment), limits.isValid = true →
      admitStructure judgment limits = .ok () → ∃ limit, limits.jsonNestingLimit = some limit ∧
        judgment.toJson.nesting ≤ limit ∧ Document judgment.toJson.nesting judgment.toJson.write ∧
          jsonEnvelope judgment.toJson.write limit = .ok ()) ∧
      ∀ (text : List UInt8) (n maxNesting : Nat), Document n text →
        (jsonEnvelope text maxNesting = .error (.exhausted "json_depth_limit") ↔ maxNesting < n) ∧
          (jsonEnvelope text maxNesting = .ok () ↔ n ≤ maxNesting) := by
  constructor
  · intro limits judgment valid admitted
    have within := nesting_judgment admitted
    have document := judgment.toJson.write_derives.pad
    refine ⟨_, jsonNestingLimit_eq valid, within, document, ?_⟩
    rw [jsonEnvelope_document document, if_pos within]
  · intro text n maxNesting document
    rw [jsonEnvelope_document document]
    split
    · simp; omega
    · simp; omega

theorem jsonEnvelope_exact_identity :
    let judgment : Judgment := ⟨"verum-native/1", .pi (.universe (.var "u")) (.universe (.var "u")),
      ⟨.lam (.universe (.var "u")) (.var 0), .pi (.universe (.var "u")) (.universe (.var "u")), []⟩⟩
    jsonEnvelope judgment.toJson.write 32 = .ok () ∧
      jsonEnvelope [0x5B, 0x7B, 0x7D, 0x5D] 1 = .error (.exhausted "json_depth_limit") := by
  intro judgment
  obtain ⟨limit, isLimit, -, -, passes⟩ := jsonEnvelope_exact.1 ⟨100, 20, 2⟩ judgment (by decide) (by rfl)
  have same : limit = 32 := Option.some.inj (isLimit.symm.trans (by decide))
  have nested : Document 2 [0x5B, 0x7B, 0x7D, 0x5D] :=
    (Derives.array (Derives.lastElement (Derives.emptyObject Blank.nil).pad)).pad
  exact ⟨same ▸ passes, (jsonEnvelope_exact.2 _ 2 1 nested).1.mpr (by decide)⟩

end Budget

end Proof
