import Verum.Proof.ExportPrinting
import Mathlib.Data.List.Induction

open List

namespace Proof

section Numbering

def numeral (n : Nat) : String := String.ofList (decimal n)

theorem numeral_injective {n m : Nat} (eq : numeral n = numeral m) : n = m :=
  decimal_injective (String.ofList_injective eq)

def Codes (names : String → String) (levels : LevelNames) : Prop :=
  ∀ index name, levels[index]? = some name → names name = numeral index

variable {levels : LevelNames}

theorem Codes.of_prefix {names : String → String} {more : LevelNames} (codes : Codes names more)
    (front : levels <+: more) : Codes names levels := by
  intro idx name hit
  obtain ⟨rest, rfl⟩ := front
  have hin := (List.getElem?_eq_some_iff.mp hit).1
  refine codes idx name ?_
  rw [List.getElem?_append_left hin]
  exact hit

theorem exists_codes (nd : levels.Nodup) : ∃ names : Equiv.Perm String, Codes names levels := by
  induction levels using List.reverseRecOn with
  | nil => exact ⟨Equiv.refl String, nofun⟩
  | append_singleton levels last ih =>
    obtain ⟨front, -, ne⟩ := nodup_append.mp nd
    obtain ⟨names, codes⟩ := ih front
    refine ⟨names.trans (Equiv.swap (names last) (numeral levels.length)), fun idx name hit => ?_⟩
    rw [Equiv.trans_apply]
    by_cases hin : idx < levels.length
    · rw [List.getElem?_append_left hin] at hit
      have listed : name ∈ levels := mem_of_getElem? hit
      rw [codes idx name hit]
      refine Equiv.swap_apply_of_ne_of_ne ?_ ?_
      · intro eq
        rw [← codes idx name hit] at eq
        exact ne name listed last (mem_singleton_self last) (names.injective eq)
      · intro eq
        exact Nat.ne_of_lt hin (numeral_injective eq)
    · rw [List.getElem?_append_right (Nat.not_lt.mp hin), List.getElem?_singleton] at hit
      split at hit
      · rename_i isLast
        rw [← Option.some.inj hit, Equiv.swap_apply_left]
        congr 1
        omega
      · cases hit

end Numbering

section Encoding

/-- The names after a part of the text, and what the text is once the names are numbers. -/
structure Encoded (levels after : LevelNames) (reads : (String → String) → Prop) : Prop where
  more : levels <+: after
  distinct : levels.Nodup → after.Nodup
  reads : ∀ names, Codes names after → reads names

variable {levels after : LevelNames} {first second : (String → String) → Prop} {inStatement : Bool}

theorem Encoded.trans {mid : LevelNames} (encoded : Encoded levels mid first)
    (encoded' : Encoded mid after second) : Encoded levels after fun names => first names ∧ second names where
  more := encoded.more.trans encoded'.more
  distinct := fun distinct => encoded'.distinct (encoded.distinct distinct)
  reads := fun names codes => ⟨encoded.reads names (codes.of_prefix encoded'.more), encoded'.reads names codes⟩

theorem Encoded.imp (encoded : Encoded levels after first) (imp : ∀ names, first names → second names) :
    Encoded levels after second :=
  ⟨encoded.more, encoded.distinct, fun names codes => imp names (encoded.reads names codes)⟩

theorem Encoded.same {reads : (String → String) → Prop} (levels : LevelNames) (all : ∀ names, reads names) :
    Encoded levels levels reads :=
  ⟨prefix_rfl, fun nd => nd, fun names _ => all names⟩

theorem levelIndex_encoded {name : String} {idx : Nat}
    (hit : levelIndex inStatement levels name = .ok (idx, after)) :
    Encoded levels after fun names => names name = numeral idx := by
  unfold levelIndex at hit
  split at hit
  · rename_i pos isPosition
    cases hit
    refine ⟨prefix_rfl, fun nd => nd, fun names codes => codes _ _ ?_⟩
    obtain ⟨hin, isName, -⟩ := List.idxOf?_eq_some_iff.mp isPosition
    rw [List.getElem?_eq_getElem hin, isName]
  · rename_i ha
    split at hit
    · cases hit
      have hf : name ∉ levels := List.idxOf?_eq_none_iff.mp ha
      refine ⟨prefix_append _ _, fun nd => ?_, fun names codes => codes _ _ ?_⟩
      · exact nodup_append.mpr ⟨nd, nodup_singleton _, fun a mem b mem' eq =>
          hf (mem_singleton.mp mem' ▸ eq ▸ mem)⟩
      · exact List.getElem?_concat_length
    · cases hit

theorem encodeLevel_encoded {l : Level} {text : List Char}
    (encodes : encodeLevel inStatement levels l = .ok (text, after)) :
    Encoded levels after fun names => (l.renameLevels names).Numbered ∧ text = printLevel (l.renameLevels names) := by
  induction l generalizing levels after text with
  | concrete n =>
    cases encodes
    exact .same levels fun names => ⟨trivial, rfl⟩
  | var name =>
    simp only [encodeLevel, bind_eq_ok, Prod.exists] at encodes
    obtain ⟨index, middle, found, returned⟩ := encodes
    cases returned
    refine (levelIndex_encoded found).imp fun names isNumber => ?_
    have chars : (names name).toList = decimal index := by rw [isNumber, numeral, String.toList_ofList]
    exact ⟨⟨index, chars⟩, by rw [Level.renameLevels, printLevel, chars]⟩
  | succ inner ih | offset inner amount ih =>
    simp only [encodeLevel, bind_eq_ok, Prod.exists] at encodes
    obtain ⟨text, middle, found, returned⟩ := encodes
    cases returned
    refine (ih found).imp ?_
    rintro names ⟨numbered, rfl⟩
    exact ⟨numbered, rfl⟩
  | max a b ih ih' =>
    simp only [encodeLevel, bind_eq_ok, Prod.exists] at encodes
    obtain ⟨text, middle, found, text', last, found', returned⟩ := encodes
    cases returned
    refine ((ih found).trans (ih' found')).imp ?_
    rintro names ⟨⟨numbered, rfl⟩, numbered', rfl⟩
    exact ⟨⟨numbered, numbered'⟩, rfl⟩

theorem encodeTerm_encoded {inStatement : Bool} {levels after : LevelNames} {d : Nat} {text : List Char} :
    (t : Term) → encodeTerm inStatement levels d t = .ok (text, after) →
    Encoded levels after fun names => Printable d (t.renameLevels names) ∧
      ∀ rest, text ++ rest = printTerm d rest (t.renameLevels names)
  | .var idx => by
    intro encodes
    unfold encodeTerm at encodes
    split at encodes
    · cases encodes
    · rename_i hin
      cases encodes
      refine .same levels fun names => ⟨Nat.lt_of_succ_le (Nat.not_lt.mp hin), fun rest => ?_⟩
      simp only [Term.renameLevels, printTerm, String.reduceToList, cons_append, nil_append, append_assoc]
  | .universe lvl => by
    intro encodes
    simp only [encodeTerm, bind_eq_ok, Prod.exists] at encodes
    obtain ⟨text, mid, hit, ret⟩ := encodes
    cases ret
    refine (encodeLevel_encoded hit).imp ?_
    rintro names ⟨numbered, isText⟩
    refine ⟨numbered, fun rest => ?_⟩
    simp only [Term.renameLevels, printTerm, isText, String.reduceToList, cons_append, nil_append, append_assoc]
  | .pi a b | .lam a b | .sigma a b | .letIn a b | .pair a b | .app a b => by
    intro encodes
    simp only [encodeTerm, bind_eq_ok, Prod.exists] at encodes
    obtain ⟨text, mid, hit, text', last, found', ret⟩ := encodes
    cases ret
    refine ((encodeTerm_encoded a hit).trans (encodeTerm_encoded b found')).imp ?_
    rintro names ⟨⟨printable, isText⟩, printable', isText'⟩
    refine ⟨⟨printable, printable'⟩, fun rest => ?_⟩
    simp only [Term.renameLevels, printTerm, String.reduceToList, cons_append, nil_append, append_assoc,
      ← isText, ← isText']
  | .fst v | .snd v | .refl v => by
    intro encodes
    simp only [encodeTerm, bind_eq_ok, Prod.exists] at encodes
    obtain ⟨text, mid, hit, ret⟩ := encodes
    cases ret
    refine (encodeTerm_encoded v hit).imp ?_
    rintro names ⟨printable, isText⟩
    refine ⟨printable, fun rest => ?_⟩
    simp only [Term.renameLevels, printTerm, String.reduceToList, cons_append, nil_append, append_assoc,
      ← isText]
  | .id ty lhs rhs | .j ty lhs rhs | .idElim ty lhs rhs => by
    intro encodes
    simp only [encodeTerm, bind_eq_ok, Prod.exists] at encodes
    obtain ⟨text, mid, hit, text', middle', found', text'', last, found'', ret⟩ := encodes
    cases ret
    refine (((encodeTerm_encoded ty hit).trans (encodeTerm_encoded lhs found')).trans
      (encodeTerm_encoded rhs found'')).imp ?_
    rintro names ⟨⟨⟨printable, isText⟩, printable', isText'⟩, printable'', isText''⟩
    refine ⟨⟨printable, printable', printable''⟩, fun rest => ?_⟩
    simp only [Term.renameLevels, printTerm, String.reduceToList, cons_append, nil_append, append_assoc,
      ← isText, ← isText', ← isText'']
  | .data _ _ _ _ | .construct _ _ _ | .induct _ _ _ | .funExt _ _ _ _ => by rintro ⟨⟩

end Encoding

section Renaming

theorem Level.renameLevels_trans (l : Level) (first second : String → String) :
    (l.renameLevels first).renameLevels second = l.renameLevels (second ∘ first) := by
  induction l with
  | concrete n | var name => rfl
  | succ inner ih | offset base amount ih => simp only [Level.renameLevels, ih]
  | max a b ih ih' => simp only [Level.renameLevels, ih, ih']

theorem Level.renameLevels_id (l : Level) : l.renameLevels (fun name => name) = l := by
  induction l with
  | concrete n | var name => rfl
  | succ inner ih | offset base amount ih => simp only [Level.renameLevels, ih]
  | max a b ih ih' => simp only [Level.renameLevels, ih, ih']

theorem Level.identify_renameLevels (l : Level) (names : String → String) :
    (l.renameLevels names).identify = l.identify.renameLevels names := by
  induction l with
  | concrete n | var name => rfl
  | succ inner ih | offset base amount ih => simp only [Level.renameLevels, Level.identify, ih]
  | max a b ih ih' => simp only [Level.renameLevels, Level.identify, ih, ih']

theorem identify_renameLevels (names : String → String) : (t : Term) →
    (t.renameLevels names).identify = t.identify.renameLevels names
  | .letIn a b | .pi a b | .lam a b | .sigma a b | .app a b | .pair a b => by
    simp only [Term.renameLevels, Term.identify, identify_renameLevels names a, identify_renameLevels names b]
  | .fst a | .snd a | .refl a => by simp only [Term.renameLevels, Term.identify, identify_renameLevels names a]
  | .id a b c | .j a b c | .idElim a b c => by
    simp only [Term.renameLevels, Term.identify, identify_renameLevels names a, identify_renameLevels names b, identify_renameLevels names c]
  | .universe lvl => by simp only [Term.renameLevels, Term.identify, Level.identify_renameLevels]
  | .var _ | .data _ _ _ _ | .construct _ _ _ | .induct _ _ _ | .funExt _ _ _ _ => rfl

mutual

theorem Term.renameLevels_trans (first second : String → String) : (t : Term) →
    (t.renameLevels first).renameLevels second = t.renameLevels (second ∘ first)
  | .data name lvl idxs ctors => by
    simp only [Term.renameLevels, Level.renameLevels_trans, renameTerms_trans, renameConstructors_trans]
  | .construct _ _ _ | .induct _ _ _ => by simp only [Term.renameLevels, Term.renameLevels_trans, renameTerms_trans]
  | .universe lvl => by simp only [Term.renameLevels, Level.renameLevels_trans]
  | .var _ => rfl
  | .letIn _ _ | .pi _ _ | .lam _ _ | .sigma _ _ | .app _ _ | .pair _ _ | .fst _ | .snd _ | .refl _ | .id _ _ _
  | .j _ _ _ | .idElim _ _ _ | .funExt _ _ _ _ => by
    simp only [Term.renameLevels, Term.renameLevels_trans]

theorem renameTerms_trans (first second : String → String) : (terms : List Term) →
    renameTerms second (renameTerms first terms) = renameTerms (second ∘ first) terms
  | [] => rfl
  | term :: rest => by simp only [renameTerms, Term.renameLevels_trans first second term, renameTerms_trans first second rest]

theorem DataField.renameLevels_trans (first second : String → String) : (field : DataField) →
    (field.renameLevels first).renameLevels second = field.renameLevels (second ∘ first)
  | .value ty | .dependent ty => by simp only [DataField.renameLevels, Term.renameLevels_trans first second ty]
  | .recursive => rfl
  | .recursiveAt idxs => by simp only [DataField.renameLevels, renameTerms_trans first second idxs]

theorem renameFields_trans (first second : String → String) : (fs : List DataField) →
    renameFields second (renameFields first fs) = renameFields (second ∘ first) fs
  | [] => rfl
  | field :: rest => by
    simp only [renameFields, DataField.renameLevels_trans first second field, renameFields_trans first second rest]

theorem DataConstructor.renameLevels_trans (first second : String → String) : (constructor : DataConstructor) →
    (constructor.renameLevels first).renameLevels second = constructor.renameLevels (second ∘ first)
  | .mk fs idxs => by
    simp only [DataConstructor.renameLevels, renameFields_trans first second fs, renameTerms_trans first second idxs]

theorem renameConstructors_trans (first second : String → String) : (ctors : List DataConstructor) →
    renameConstructors second (renameConstructors first ctors) = renameConstructors (second ∘ first) ctors
  | [] => rfl
  | constructor :: rest => by
    simp only [renameConstructors, DataConstructor.renameLevels_trans first second constructor,
      renameConstructors_trans first second rest]

end

mutual

theorem Term.renameLevels_id : (t : Term) → t.renameLevels (fun name => name) = t
  | .data name lvl idxs ctors => by
    simp only [Term.renameLevels, Level.renameLevels_id, renameTerms_id idxs, renameConstructors_id ctors]
  | .construct data constructor args => by simp only [Term.renameLevels, Term.renameLevels_id data, renameTerms_id args]
  | .induct scrut motive cases => by
    simp only [Term.renameLevels, Term.renameLevels_id scrut, Term.renameLevels_id motive, renameTerms_id cases]
  | .universe lvl => by simp only [Term.renameLevels, Level.renameLevels_id]
  | .var _ => rfl
  | .letIn a b | .pi a b | .lam a b | .sigma a b | .app a b | .pair a b => by
    simp only [Term.renameLevels, Term.renameLevels_id a, Term.renameLevels_id b]
  | .fst a | .snd a | .refl a => by simp only [Term.renameLevels, Term.renameLevels_id a]
  | .id a b c | .j a b c | .idElim a b c => by
    simp only [Term.renameLevels, Term.renameLevels_id a, Term.renameLevels_id b, Term.renameLevels_id c]
  | .funExt a b c d => by
    simp only [Term.renameLevels, Term.renameLevels_id a, Term.renameLevels_id b, Term.renameLevels_id c, Term.renameLevels_id d]

theorem renameTerms_id : (terms : List Term) → renameTerms (fun name => name) terms = terms
  | [] => rfl
  | term :: rest => by simp only [renameTerms, Term.renameLevels_id term, renameTerms_id rest]

theorem DataField.renameLevels_id : (field : DataField) → field.renameLevels (fun name => name) = field
  | .value ty | .dependent ty => by simp only [DataField.renameLevels, Term.renameLevels_id ty]
  | .recursive => rfl
  | .recursiveAt idxs => by simp only [DataField.renameLevels, renameTerms_id idxs]

theorem renameFields_id : (fs : List DataField) → renameFields (fun name => name) fs = fs
  | [] => rfl
  | field :: rest => by simp only [renameFields, DataField.renameLevels_id field, renameFields_id rest]

theorem DataConstructor.renameLevels_id : (constructor : DataConstructor) →
    constructor.renameLevels (fun name => name) = constructor
  | .mk fs idxs => by simp only [DataConstructor.renameLevels, renameFields_id fs, renameTerms_id idxs]

theorem renameConstructors_id : (ctors : List DataConstructor) →
    renameConstructors (fun name => name) ctors = ctors
  | [] => rfl
  | constructor :: rest => by
    simp only [renameConstructors, DataConstructor.renameLevels_id constructor, renameConstructors_id rest]

end

theorem identify_of_numbered {t t' : Term} {names names' : Equiv.Perm String}
    (eq : (t.renameLevels names).identify = (t'.renameLevels names').identify) :
    (t.renameLevels (names.trans names'.symm)).identify = t'.identify := by
  have back : names'.symm ∘ names' = fun name => name := funext names'.symm_apply_apply
  calc (t.renameLevels (names.trans names'.symm)).identify
      = ((t.renameLevels names).renameLevels names'.symm).identify := by rw [Term.renameLevels_trans]; rfl
    _ = (t'.renameLevels names').identify.renameLevels names'.symm := by rw [Proof.identify_renameLevels, eq]
    _ = t'.identify := by rw [← Proof.identify_renameLevels, Term.renameLevels_trans, back, Term.renameLevels_id]

end Renaming

section Exports

variable {text rest rest' : List Char} {judgment : Judgment}

theorem newline_unique {text' : List Char} (line : '\n' ∉ text) (line' : '\n' ∉ text')
    (eq : text ++ '\n' :: rest = text' ++ '\n' :: rest') : rest = rest' := by
  induction text generalizing text' with
  | nil =>
    cases text' with
    | nil => exact (List.cons.inj eq).2
    | cons c text' =>
      rw [(List.cons.inj eq).1] at line'
      exact absurd (.head _) line'
  | cons c text ih =>
    cases text' with
    | nil =>
      rw [← (List.cons.inj eq).1] at line
      exact absurd (.head _) line
    | cons c' text' =>
      exact ih (fun mem => line (.tail _ mem)) (fun mem => line' (.tail _ mem)) (List.cons.inj eq).2

theorem universeHeader_cases (levels : LevelNames) :
    universeHeader levels = [] ∨ ∃ text, '\n' ∉ text ∧ universeHeader levels = 'u' :: (text ++ ['\n']) := by
  unfold universeHeader
  split
  · exact .inl rfl
  · refine .inr ⟨"niverse".toList ++ (List.range levels.length).flatMap fun idx => " w".toList ++ decimal idx, ?_, ?_⟩
    · intro mem
      rcases mem_append.mp mem with letters | listed
      · exact absurd letters (by decide)
      · obtain ⟨idx, -, among⟩ := mem_flatMap.mp listed
        rcases mem_append.mp among with letters | digits
        · exact absurd letters (by decide)
        · exact absurd (decimal_digits idx _ digits) (by decide)
    · have letters : "universe".toList = 'u' :: "niverse".toList := by simp
      rw [letters, cons_append, cons_append]

theorem universeHeader_unique {levels levels' : LevelNames}
    (eq : universeHeader levels ++ 'd' :: rest = universeHeader levels' ++ 'd' :: rest') : rest = rest' := by
  rcases universeHeader_cases levels with empty | ⟨text, line, isHeader⟩
  · rcases universeHeader_cases levels' with empty' | ⟨text', -, isHeader'⟩
    · rw [empty, empty'] at eq
      exact (List.cons.inj eq).2
    · rw [empty, isHeader'] at eq
      exact absurd (List.cons.inj eq).1 (by decide)
  · rcases universeHeader_cases levels' with empty' | ⟨text', line', isHeader'⟩
    · rw [isHeader, empty'] at eq
      exact absurd (List.cons.inj eq).1 (by decide)
    · rw [isHeader, isHeader', cons_append, cons_append, append_assoc, append_assoc] at eq
      exact (List.cons.inj (newline_unique line line' (List.cons.inj eq).2)).2

theorem exportJudgment_ok (exported : exportJudgment judgment = .ok text) :
    ∃ (statement proof : List Char) (levels after : LevelNames),
      encodeTerm true [] 0 judgment.statement = .ok (statement, levels) ∧
        encodeTerm false levels 0 judgment.certificate.term = .ok (proof, after) ∧
          text = exportPrelude.toList ++ (universeHeader after ++ ("def checked : ".toList ++ (statement ++
            (" :=\n".toList ++ (proof ++ "\n#print axioms checked\nend VerumCertificate\n".toList))))) := by
  obtain ⟨⟨statement, levels⟩, isStatement, afterStatement⟩ := bind_eq_ok.mp exported
  obtain ⟨⟨proof, after⟩, isProof, ret⟩ := bind_eq_ok.mp afterStatement
  exact ⟨statement, proof, levels, after, isStatement, isProof, (Except.ok.inj ret).symm⟩

theorem exportJudgment_faithful {judgment' : Judgment} (exported : exportJudgment judgment = .ok text)
    (exported' : exportJudgment judgment' = .ok text) :
    ∃ names : Equiv.Perm String, (judgment.statement.renameLevels names).identify = judgment'.statement.identify ∧
      (judgment.certificate.term.renameLevels names).identify = judgment'.certificate.term.identify := by
  obtain ⟨statement, proof, levels, after, isStatement, isProof, isText⟩ := exportJudgment_ok exported
  obtain ⟨statement', proof', levels', after', isStatement', isProof', isText'⟩ := exportJudgment_ok exported'
  have encoded := (encodeTerm_encoded _ isStatement).trans (encodeTerm_encoded _ isProof)
  have encoded' := (encodeTerm_encoded _ isStatement').trans (encodeTerm_encoded _ isProof')
  obtain ⟨names, codes⟩ := exists_codes (encoded.distinct nodup_nil)
  obtain ⟨names', codes'⟩ := exists_codes (encoded'.distinct nodup_nil)
  obtain ⟨⟨printable, reads⟩, printableProof, readsProof⟩ := encoded.reads _ codes
  obtain ⟨⟨printable', reads'⟩, printableProof', readsProof'⟩ := encoded'.reads _ codes'
  have afterPrelude := append_cancel_left (isText.symm.trans isText')
  have definition : ∀ rest, "def checked : ".toList ++ rest = 'd' :: ("ef checked : ".toList ++ rest) := by
    intro rest
    simp only [String.reduceToList, cons_append]
  rw [definition, definition] at afterPrelude
  have afterHeader := append_cancel_left (universeHeader_unique afterPrelude)
  rw [reads, reads'] at afterHeader
  obtain ⟨statements, tails⟩ := printTerm_unique _ _ _ _ _ printable printable' afterHeader
  have proofs := append_cancel_left tails
  rw [readsProof, readsProof'] at proofs
  obtain ⟨terms, -⟩ := printTerm_unique _ _ _ _ _ printableProof printableProof' proofs
  exact ⟨names.trans names'.symm, identify_of_numbered statements, identify_of_numbered terms⟩

def renamed {α : Type} (names : String → String) (part : Except String (α × LevelNames)) :
    Except String (α × LevelNames) :=
  part.map fun (text, levels) => (text, levels.map names)

theorem renamed_bind {α β : Type} {names : String → String} {part : Except String (α × LevelNames)}
    {next next' : α × LevelNames → Except String (β × LevelNames)}
    (each : ∀ text levels, next' (text, levels.map names) = renamed names (next (text, levels))) :
    (renamed names part >>= next') = renamed names (part >>= next) := by
  cases part with
  | error message => rfl
  | ok res => exact each res.1 res.2

variable {names : String → String}

theorem levelIndex_rename (injective : names.Injective) (inStatement : Bool) (levels : LevelNames) (name : String) :
    levelIndex inStatement (levels.map names) (names name) = renamed names (levelIndex inStatement levels name) := by
  have pos : (levels.map names).idxOf? (names name) = levels.idxOf? name := by
    unfold List.idxOf?
    rw [List.findIdx?_map]
    congr 1
    funext other
    rw [Function.comp_apply, Bool.eq_iff_iff, beq_iff_eq, beq_iff_eq]
    exact injective.eq_iff
  unfold levelIndex
  rw [pos]
  cases levels.idxOf? name with
  | some idx => rfl
  | none =>
    cases inStatement with
    | false => rfl
    | true =>
      simp only [if_true, length_map]
      rw [← map_singleton, ← map_append]
      rfl

theorem encodeLevel_rename (injective : names.Injective) (inStatement : Bool) (levels : LevelNames) (l : Level) :
    encodeLevel inStatement (levels.map names) (l.renameLevels names) = renamed names (encodeLevel inStatement levels l) := by
  induction l generalizing levels with
  | concrete n => rfl
  | var name =>
    simp only [Level.renameLevels, encodeLevel, levelIndex_rename injective]
    exact renamed_bind fun _ _ => rfl
  | succ inner ih | offset inner amount ih =>
    simp only [Level.renameLevels, encodeLevel, ih]
    exact renamed_bind fun _ _ => rfl
  | max a b ih ih' =>
    simp only [Level.renameLevels, encodeLevel, ih]
    refine renamed_bind fun text middle => ?_
    simp only [ih']
    exact renamed_bind fun _ _ => rfl

theorem encodeTerm_rename (injective : names.Injective) (inStatement : Bool) (levels : LevelNames) (d : Nat) :
    (t : Term) → encodeTerm inStatement (levels.map names) d (t.renameLevels names) =
      renamed names (encodeTerm inStatement levels d t)
  | .var idx => by
    simp only [Term.renameLevels, encodeTerm]
    split <;> rfl
  | .universe lvl => by
    simp only [Term.renameLevels, encodeTerm, encodeLevel_rename injective]
    exact renamed_bind fun _ _ => rfl
  | .fst p | .snd p | .refl p => by
    simp only [Term.renameLevels, encodeTerm, encodeTerm_rename injective _ _ _ p]
    exact renamed_bind fun _ _ => rfl
  | .app a b | .pair a b | .pi a b | .lam a b | .sigma a b | .letIn a b => by
    simp only [Term.renameLevels, encodeTerm, encodeTerm_rename injective _ _ _ a]
    refine renamed_bind fun text mid => ?_
    simp only [encodeTerm_rename injective _ _ _ b]
    exact renamed_bind fun _ _ => rfl
  | .id a b c | .j a b c | .idElim a b c => by
    simp only [Term.renameLevels, encodeTerm, encodeTerm_rename injective _ _ _ a]
    refine renamed_bind fun text mid => ?_
    simp only [encodeTerm_rename injective _ _ _ b]
    refine renamed_bind fun text' middle' => ?_
    simp only [encodeTerm_rename injective _ _ _ c]
    exact renamed_bind fun _ _ => rfl
  | .data _ _ _ _ | .construct _ _ _ | .induct _ _ _ | .funExt _ _ _ _ => rfl

theorem universeHeader_map (levels : LevelNames) : universeHeader (levels.map names) = universeHeader levels := by
  unfold universeHeader
  rw [length_map, isEmpty_map]

theorem exportJudgment_rename (injective : names.Injective) (judgment : Judgment) :
    exportJudgment (judgment.renameLevels names) = exportJudgment judgment := by
  have isStatement := encodeTerm_rename injective true [] 0 judgment.statement
  rw [map_nil] at isStatement
  unfold exportJudgment Judgment.renameLevels
  rw [isStatement]
  cases encodeTerm true [] 0 judgment.statement with
  | error message => rfl
  | ok res =>
    obtain ⟨statement, levels⟩ := res
    have isProof := encodeTerm_rename injective false levels 0 judgment.certificate.term
    show (encodeTerm false (levels.map names) 0 (judgment.certificate.term.renameLevels names) >>= _) = _
    rw [isProof]
    show _ = (encodeTerm false levels 0 judgment.certificate.term >>= _)
    cases encodeTerm false levels 0 judgment.certificate.term with
    | error message => rfl
    | ok res =>
      obtain ⟨proof, after⟩ := res
      show Except.ok (exportPrelude.toList ++ (universeHeader (after.map names) ++ _)) = _
      rw [universeHeader_map]
      rfl

/-- Export is faithful: equal texts come from judgments equal up to one renaming of the level variables,
    and injective renamings keep the text. -/
theorem source_faithful (deserialize : List UInt8 → Option Judgment) :
    (∀ (bytes bytes' : List UInt8) (judgment judgment' : Judgment) (text : List Char),
      decodeJudgment deserialize bytes .intensional .default = .ok judgment →
        decodeJudgment deserialize bytes' .intensional .default = .ok judgment' →
          source deserialize bytes = .ok text → source deserialize bytes' = .ok text →
            ∃ names : Equiv.Perm String, (judgment.statement.renameLevels names).identify = judgment'.statement.identify ∧
              (judgment.certificate.term.renameLevels names).identify = judgment'.certificate.term.identify) ∧
      ∀ (bytes bytes' : List UInt8) (judgment : Judgment) (names : String → String), names.Injective →
        decodeJudgment deserialize bytes .intensional .default = .ok judgment →
          decodeJudgment deserialize bytes' .intensional .default = .ok (judgment.renameLevels names) →
            source deserialize bytes' = source deserialize bytes := by
  constructor
  · intro bytes bytes' judgment judgment' text decoded decoded' exported exported'
    rw [source, decoded] at exported
    rw [source, decoded'] at exported'
    exact exportJudgment_faithful exported exported'
  · intro bytes bytes' judgment names injective decoded decoded'
    rw [source, source, decoded, decoded']
    exact exportJudgment_rename injective judgment

/-- The universe `Type u` and its proof. -/
def universeJudgment (name : String) : Judgment :=
  { profile := "verum-native/1"
    statement := .universe (.succ (.var name))
    certificate := { term := .universe (.var name), claimedType := .universe (.succ (.var name)) } }

set_option maxRecDepth 20000 in
theorem source_faithful_universe :
    let bytes := (universeJudgment "u").toJson.write
    let bytes' := (universeJudgment "v").toJson.write
    let decoder := fun text => if text = bytes then some (universeJudgment "u") else some (universeJudgment "v")
    source decoder bytes' = source decoder bytes ∧
      ∃ names : Equiv.Perm String, ((universeJudgment "u").statement.renameLevels names).identify =
        (universeJudgment "v").statement.identify := by
  intro bytes bytes' decoder
  have decoded : decodeJudgment decoder bytes .intensional .default = .ok (universeJudgment "u") := by rfl
  have decoded' : decodeJudgment decoder bytes' .intensional .default = .ok (universeJudgment "v") := by rfl
  have same := (source_faithful decoder).2 bytes bytes' (universeJudgment "u") (Equiv.swap "u" "v")
    (Equiv.swap "u" "v").injective decoded decoded'
  obtain ⟨text, exported⟩ : ∃ text, source decoder bytes = .ok text := ⟨_, rfl⟩
  obtain ⟨names, statements, -⟩ := (source_faithful decoder).1 bytes bytes' _ _ text decoded decoded' exported
    (same.trans exported)
  exact ⟨same, names, statements⟩

end Exports

end Proof
