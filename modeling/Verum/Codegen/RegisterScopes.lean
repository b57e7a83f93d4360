import Verum.Codegen.Registers

open List

namespace Codegen

open Vbc

variable {Hints : Type}

def ScopeMarker.restored (scope : ScopeMarker Hints) (lookup : String → Option RegisterInfo) (name : String) :
    Option RegisterInfo :=
  match scope.shadowedVars.find? (fun entry => entry.1 == name) with
  | some entry => some entry.2.1
  | none => if name ∈ scope.scopeVars then none else lookup name

/-- No name that is unbound where a scope is entered is bound there twice. -/
def Body.Tidy (entry bound : Set String) : Body → Prop
  | .done => True
  | .allocLocal name _ rest => (name ∈ bound → name ∈ entry) ∧ rest.Tidy entry (insert name bound)
  | .allocTemp rest => rest.Tidy entry bound
  | .freeTemp _ rest => rest.Tidy entry bound
  | .scope inner rest => inner.Tidy bound bound ∧ rest.Tidy entry bound

namespace RegisterAllocator

variable {alloc : RegisterAllocator Hints} {scope : ScopeMarker Hints} {outer : List (ScopeMarker Hints)}

theorem restoreVars_cons (e : String × RegisterInfo × Option Hints)
    (shadowed : List (String × RegisterInfo × Option Hints)) (vars : AList fun _ : String => RegisterInfo) :
    restoreVars (e :: shadowed) vars = (restoreVars shadowed vars).insert e.1 e.2.1 := by
  unfold restoreVars
  rw [reverse_cons, foldl_append]
  rfl

theorem lookup_restoreVars (shadowed : List (String × RegisterInfo × Option Hints))
    (vars : AList fun _ : String => RegisterInfo) (name : String) :
    (restoreVars shadowed vars).lookup name =
      match shadowed.find? (fun e => e.1 == name) with
      | some e => some e.2.1
      | none => vars.lookup name := by
  induction shadowed with
  | nil => rfl
  | cons e shadowed ih =>
    rw [restoreVars_cons, List.find?_cons]
    by_cases eq : e.1 = name
    · subst eq
      rw [AList.lookup_insert, beq_self_eq_true]
    · have differs : (e.1 == name) = false := beq_eq_false_iff_ne.mpr eq
      rw [AList.lookup_insert_ne (Ne.symm eq), ih, differs]

theorem lookup_removeVars (ns : List String) (alloc : RegisterAllocator Hints) (name : String) :
    (removeVars ns alloc).2.lookup name = if name ∈ ns then none else alloc.lookup name := by
  induction ns generalizing alloc with
  | nil => rfl
  | cons head ns ih =>
    unfold removeVars
    cases hit : alloc.lookup head with
    | none =>
      dsimp only
      rw [ih]
      by_cases eq : name = head
      · subst eq
        simp [hit]
      · simp [eq]
    | some info =>
      dsimp only
      rw [ih]
      by_cases eq : name = head
      · subst eq
        simp [lookup]
      · simp [lookup, eq]

theorem scopeStack_removeVars (ns : List String) (alloc : RegisterAllocator Hints) :
    (removeVars ns alloc).2.scopeStack = alloc.scopeStack := by
  induction ns generalizing alloc with
  | nil => rfl
  | cons head ns ih =>
    unfold removeVars
    cases hit : alloc.lookup head with
    | none => exact ih alloc
    | some info => exact ih _

theorem scopeStack_exitScope (stack : alloc.scopeStack = scope :: outer) :
    alloc.exitScope.2.scopeStack = outer := by
  unfold exitScope exitScopeWithHints
  rw [stack]
  exact scopeStack_removeVars ..

theorem lookup_exitScope (stack : alloc.scopeStack = scope :: outer) :
    alloc.exitScope.2.lookup = scope.restored alloc.lookup := by
  funext name
  unfold exitScope exitScopeWithHints
  rw [stack]
  show (restoreVars scope.shadowedVars (removeVars scope.scopeVars { alloc with scopeStack := outer }).2.vars).lookup
    name = _
  rw [lookup_restoreVars]
  unfold ScopeMarker.restored
  cases scope.shadowedVars.find? (fun e => e.1 == name) with
  | some e => rfl
  | none => exact lookup_removeVars scope.scopeVars { alloc with scopeStack := outer } name

/-- The scope entered last, whose names are bound. -/
structure Inside (scope : ScopeMarker Hints) (outer : List (ScopeMarker Hints)) (alloc : RegisterAllocator Hints) :
    Prop where
  stack : alloc.scopeStack = scope :: outer
  bound : ∀ name ∈ scope.scopeVars, alloc.lookup name ≠ none
  shadowed : ∀ entry ∈ scope.shadowedVars, alloc.lookup entry.1 ≠ none

theorem Inside.enterScope (stack : alloc.scopeStack = outer) : Inside .empty outer alloc.enterScope :=
  ⟨congrArg _ stack, nofun, nofun⟩

theorem Inside.keep {hl : RegisterAllocator Hints} (hin : Inside scope outer alloc)
    (stack : hl.scopeStack = alloc.scopeStack)
    (hk : ∀ name info, alloc.lookup name = some info → hl.lookup name = some info) :
    Inside scope outer hl := by
  have still : ∀ name, alloc.lookup name ≠ none → hl.lookup name ≠ none := by
    intro name hb
    rcases Option.ne_none_iff_exists'.mp hb with ⟨info, hit⟩
    rw [hk name info hit]
    exact Option.some_ne_none info
  exact ⟨stack.trans hin.stack, fun name mem => still name (hin.bound name mem),
    fun e mem => still e.1 (hin.shadowed e mem)⟩

theorem Inside.fresh (hin : Inside scope outer alloc) {name : String} (unbound : alloc.lookup name = none) :
    scope.shadowedVars.find? (fun e => e.1 == name) = none ∧ name ∉ scope.scopeVars := by
  constructor
  · apply List.find?_eq_none.mpr
    intro e mem eq
    exact hin.shadowed e mem (eq_of_beq eq ▸ unbound)
  · intro mem
    exact hin.bound name mem unbound

theorem Inside.restored_of_unbound (hin : Inside scope outer alloc) {name : String}
    (unbound : alloc.lookup name = none) (hl : String → Option RegisterInfo) :
    scope.restored hl name = hl name := by
  unfold ScopeMarker.restored
  rw [(hin.fresh unbound).1]
  exact if_neg (hin.fresh unbound).2

theorem lookup_allocLocal (name : String) (isMutable : Bool) (alloc : RegisterAllocator Hints) : ∃ info,
    info.reg = (alloc.allocLocal name isMutable).1 ∧
    ∀ other, (alloc.allocLocal name isMutable).2.lookup other =
      if other = name then some info else alloc.lookup other := by
  have inserted : ∃ info, info.reg = (alloc.allocLocal name isMutable).1 ∧
      (alloc.allocLocal name isMutable).2.vars = alloc.vars.insert name info := ⟨_, rfl, rfl⟩
  rcases inserted with ⟨info, register, vars⟩
  refine ⟨info, register, ?_⟩
  intro other
  unfold lookup
  rw [vars]
  split
  · rename_i eq
    rw [eq, AList.lookup_insert]
  · rename_i differs
    exact AList.lookup_insert_ne differs

theorem shadow_eq (name : String) (hints : Option Hints) (scope : ScopeMarker Hints)
    (alloc : RegisterAllocator Hints) :
    (alloc.shadow name hints scope).scopeVars = scope.scopeVars ∧
    (alloc.shadow name hints scope).shadowedVars =
      scope.shadowedVars ++ ((alloc.lookup name).map fun old => (name, old, hints)).toList := by
  unfold shadow
  cases alloc.lookup name with
  | none => exact ⟨rfl, (append_nil _).symm⟩
  | some old => exact ⟨rfl, rfl⟩

theorem scopeStack_allocLocal (name : String) (isMutable : Bool) (stack : alloc.scopeStack = scope :: outer) :
    ∃ facts, (alloc.allocLocal name isMutable).2.scopeStack =
      ⟨scope.scopeVars ++ [name], scope.shadowedVars ++
        ((alloc.lookup name).map fun old => (name, old, none)).toList, facts⟩ :: outer := by
  unfold allocLocal allocLocalWithHints allocFresh
  dsimp only
  rw [stack]
  dsimp only
  have shadowed := shadow_eq name none scope { alloc with
    nextReg := alloc.nextReg + 1
    scopeStack := scope :: outer
    peakUsage := max alloc.peakUsage (alloc.nextReg + 1)
    valueUses := (alloc.valueUses.allocate ⟨alloc.nextReg⟩).2 }
  rw [shadowed.1, shadowed.2]
  exact ⟨_, rfl⟩

theorem Inside.allocLocal (hin : Inside scope outer alloc) (name : String) (isMutable : Bool) : ∃ hl info,
    Inside hl outer (alloc.allocLocal name isMutable).2 ∧
    hl.scopeVars = scope.scopeVars ++ [name] ∧
    info.reg = (alloc.allocLocal name isMutable).1 ∧
    (∀ other, (alloc.allocLocal name isMutable).2.lookup other =
      if other = name then some info else alloc.lookup other) ∧
    ∀ other, hl.restored (alloc.allocLocal name isMutable).2.lookup other =
      if other = name ∧ scope.restored alloc.lookup other = none then alloc.lookup other
      else scope.restored alloc.lookup other := by
  rcases scopeStack_allocLocal name isMutable hin.stack with ⟨facts, stack⟩
  rcases lookup_allocLocal name isMutable alloc with ⟨info, register, hit⟩
  have still : ∀ other, alloc.lookup other ≠ none → (alloc.allocLocal name isMutable).2.lookup other ≠ none := by
    intro other hb
    rw [hit]
    split
    · exact Option.some_ne_none info
    · exact hb
  refine ⟨_, info, ⟨stack, ?_, ?_⟩, rfl, register, hit, ?_⟩
  · intro other mem
    rcases mem_append.mp mem with old | new
    · exact still other (hin.bound other old)
    · rw [mem_singleton.mp new, hit, if_pos rfl]
      exact Option.some_ne_none info
  · intro e mem
    rcases mem_append.mp mem with old | new
    · exact still e.1 (hin.shadowed e old)
    · rcases Option.map_eq_some_iff.mp (Option.mem_toList.mp new) with ⟨old, hb, rfl⟩
      apply still
      rw [hb]
      exact Option.some_ne_none old
  · intro other
    by_cases eq : other = name
    · subst eq
      cases hb : alloc.lookup other with
      | none =>
        rw [hin.restored_of_unbound hb, hb, ite_self]
        unfold ScopeMarker.restored
        simp only [Option.map_none, Option.toList_none, append_nil, (hin.fresh hb).1]
        exact if_pos (mem_append_right _ mem_cons_self)
      | some old =>
        unfold ScopeMarker.restored
        simp only [List.find?_append]
        cases fst : scope.shadowedVars.find? (fun e => e.1 == other) with
        | some e => simp
        | none =>
          by_cases mem : other ∈ scope.scopeVars
          · simp [mem]
          · simp [mem, hb]
    · rw [if_neg fun both => eq both.1]
      unfold ScopeMarker.restored
      have differs : ¬ name = other := Ne.symm eq
      have skip : List.find? (fun e => e.1 == other)
          ((alloc.lookup name).map fun old => (name, old, (none : Option Hints))).toList = none := by
        cases alloc.lookup name with
        | none => rfl
        | some old => simp [differs]
      simp only [List.find?_append, skip, Option.or_none, mem_append, mem_singleton, eq, or_false, hit,
        if_false]

theorem run_append (alloc : RegisterAllocator Hints) (fst snd : List Call) :
    alloc.run (fst ++ snd) = (alloc.run fst).run snd := foldl_append

theorem lookup_allocTemp (alloc : RegisterAllocator Hints) : alloc.allocTemp.2.lookup = alloc.lookup ∧
    alloc.allocTemp.2.scopeStack = alloc.scopeStack := by
  unfold allocTemp
  split
  · exact ⟨rfl, rfl⟩
  · exact ⟨rfl, rfl⟩

theorem lookup_freeTemp (alloc : RegisterAllocator Hints) (reg : Reg) :
    (alloc.freeTemp reg).lookup = alloc.lookup ∧ (alloc.freeTemp reg).scopeStack = alloc.scopeStack := by
  unfold freeTemp
  split
  · exact ⟨rfl, rfl⟩
  · exact ⟨rfl, rfl⟩

/-- What a run inside a scope leaves of the scope and of the bindings. -/
structure Continues (body : Body) (scope : ScopeMarker Hints) (alloc : RegisterAllocator Hints)
    (later : ScopeMarker Hints) (ended : RegisterAllocator Hints) : Prop where
  keeps : ∀ name info, scope.restored alloc.lookup name = some info → later.restored ended.lookup name = some info
  restores : later.restored ended.lookup = scope.restored alloc.lookup ↔
    body.Tidy {name | scope.restored alloc.lookup name ≠ none} {name | alloc.lookup name ≠ none}
  scopeVars : later.scopeVars = scope.scopeVars ++ body.names
  others : ∀ name ∉ body.names, ∀ info, alloc.lookup name = some info → ended.lookup name = some info

theorem Continues.same {fst snd : Body} {hl : ScopeMarker Hints} {next ended : RegisterAllocator Hints}
    (continues : Continues fst scope next hl ended) (eq : next.lookup = alloc.lookup)
    (ns : snd.names = fst.names) (tidy : ∀ e hb, snd.Tidy e hb = fst.Tidy e hb) :
    Continues snd scope alloc hl ended := by
  rcases continues with ⟨hk, restores, scopeVars, others⟩
  rw [eq] at hk restores others
  rw [← ns] at scopeVars others
  rw [← tidy] at restores
  exact ⟨hk, restores, scopeVars, others⟩

theorem restored_mono {pre after : String → Option RegisterInfo}
    (hk : ∀ name info, pre name = some info → after name = some info) (name : String) (info : RegisterInfo)
    (hb : scope.restored pre name = some info) : scope.restored after name = some info := by
  unfold ScopeMarker.restored at hb ⊢
  cases fst : scope.shadowedVars.find? (fun e => e.1 == name) with
  | some e =>
    rw [fst] at hb
    exact hb
  | none =>
    rw [fst] at hb
    dsimp only at hb ⊢
    split at hb
    · cases hb
    · rename_i outside
      rw [if_neg outside]
      exact hk name info hb

theorem untidy_of_changed {A B C : String → Option RegisterInfo} (grows : ∀ name info, A name = some info → B name = some info)
    (hk : ∀ name info, B name = some info → C name = some info) (changed : B ≠ A) : C ≠ A := by
  intro eq
  apply changed
  funext name
  cases pre : A name with
  | some info => exact grows name info pre
  | none =>
    cases after : B name with
    | none => rfl
    | some info =>
      have final := hk name info after
      rw [eq, pre] at final
      cases final

theorem Inside.run (body : Body) {outer : List (ScopeMarker Hints)} {scope : ScopeMarker Hints}
    {alloc : RegisterAllocator Hints} (hin : Inside scope outer alloc) : ∃ hl,
    Inside hl outer (alloc.run body.calls) ∧ Continues body scope alloc hl (alloc.run body.calls) := by
  induction body generalizing outer scope alloc with
  | done =>
    exact ⟨scope, hin, fun _ _ eq => eq, ⟨fun _ => True.intro, fun _ => rfl⟩, (append_nil _).symm,
      fun _ _ _ eq => eq⟩
  | allocTemp rest ih =>
    have eq := lookup_allocTemp alloc
    rcases ih (hin.keep eq.2 fun name info hit => eq.1 ▸ hit) with ⟨hl, ended, continues⟩
    exact ⟨hl, ended, continues.same eq.1 rfl fun _ _ => rfl⟩
  | freeTemp reg rest ih =>
    have eq := lookup_freeTemp alloc reg
    rcases ih (hin.keep eq.2 fun name info hit => eq.1 ▸ hit) with ⟨hl, ended, continues⟩
    exact ⟨hl, ended, continues.same eq.1 rfl fun _ _ => rfl⟩
  | allocLocal name isMutable rest ih =>
    rcases hin.allocLocal name isMutable with ⟨next, info, entered, scopeVars, -, hit, restored⟩
    rcases ih entered with ⟨hl, ended, continues⟩
    have grows : ∀ other info, scope.restored alloc.lookup other = some info →
        next.restored (alloc.allocLocal name isMutable).2.lookup other = some info := by
      intro other info hb
      rw [restored, hb, if_neg fun both => nomatch both.2]
    refine ⟨hl, ended, ?_, ?_, ?_, ?_⟩
    · intro other info hb
      exact continues.keeps other info (grows other info hb)
    · by_cases own : name ∈ {name | alloc.lookup name ≠ none} → name ∈ {name | scope.restored alloc.lookup name ≠ none}
      · have eq : next.restored (alloc.allocLocal name isMutable).2.lookup = scope.restored alloc.lookup := by
          funext other
          rw [restored]
          split
          · rename_i both
            rcases both with ⟨rfl, gone⟩
            have unbound : alloc.lookup other = none := by
              by_contra hb
              exact own hb gone
            rw [unbound, gone]
          · rfl
        have hb : {other | (alloc.allocLocal name isMutable).2.lookup other ≠ none} =
            insert name {other | alloc.lookup other ≠ none} := by
          ext other
          simp only [hit, Set.mem_setOf_eq, Set.mem_insert_iff]
          by_cases eq : other = name
          · simp [eq]
          · simp [eq]
        have law := continues.restores
        rw [eq, hb] at law
        exact law.trans ⟨fun tidy => ⟨own, tidy⟩, fun tidy => tidy.2⟩
      · have changed : next.restored (alloc.allocLocal name isMutable).2.lookup ≠ scope.restored alloc.lookup := by
          intro eq
          rcases Classical.not_imp.mp own with ⟨hb, gone⟩
          have ha : scope.restored alloc.lookup name = none := Classical.not_not.mp gone
          have here := restored name
          rw [eq, if_pos ⟨rfl, ha⟩, ha] at here
          exact hb here.symm
        exact ⟨fun eq => absurd eq (untidy_of_changed grows continues.keeps changed),
          fun tidy => absurd tidy.1 own⟩
    · rw [continues.scopeVars, scopeVars, append_assoc]
      rfl
    · intro other outside old hb
      have differs : other ≠ name := fun eq => outside (eq ▸ mem_cons_self)
      apply continues.others other fun mem => outside (.tail _ mem)
      rw [hit, if_neg differs]
      exact hb
  | scope inner rest inner_ih ih =>
    rcases inner_ih (Inside.enterScope hin.stack) with ⟨last, ended, continues⟩
    have runs : alloc.run (Body.scope inner rest).calls =
        ((alloc.enterScope.run inner.calls).exitScope.2).run rest.calls := by
      show alloc.enterScope.run (inner.calls ++ Call.exitScope :: rest.calls) = _
      rw [run_append]
      rfl
    rw [runs]
    have start : (ScopeMarker.empty : ScopeMarker Hints).restored alloc.enterScope.lookup = alloc.lookup := rfl
    have left := lookup_exitScope ended.stack
    have hk : ∀ name info, alloc.lookup name = some info →
        (alloc.enterScope.run inner.calls).exitScope.2.lookup name = some info := by
      rw [left]
      exact continues.keeps
    have back : Inside scope outer (alloc.enterScope.run inner.calls).exitScope.2 :=
      hin.keep ((scopeStack_exitScope ended.stack).trans hin.stack.symm) hk
    rcases ih back with ⟨hl, finished, following⟩
    have grows : ∀ name info, scope.restored alloc.lookup name = some info →
        scope.restored (alloc.enterScope.run inner.calls).exitScope.2.lookup name = some info :=
      restored_mono hk
    refine ⟨hl, finished, ?_, ?_, ?_, ?_⟩
    · intro name info hb
      exact following.keeps name info (grows name info hb)
    · by_cases tidy : inner.Tidy {name | alloc.lookup name ≠ none} {name | alloc.lookup name ≠ none}
      · have eq := left.trans (continues.restores.mpr tidy)
        have law := following.restores
        rw [eq, start] at law
        exact law.trans ⟨fun rest => ⟨tidy, rest⟩, fun both => both.2⟩
      · have changed : scope.restored (alloc.enterScope.run inner.calls).exitScope.2.lookup ≠
            scope.restored alloc.lookup := by
          intro eq
          apply tidy
          apply continues.restores.mp
          rw [← left, start]
          funext name
          cases hb : alloc.lookup name with
          | some info => exact hk name info hb
          | none =>
            have here := congrFun eq name
            rw [hin.restored_of_unbound hb, hin.restored_of_unbound hb, hb] at here
            exact here
        exact ⟨fun eq => absurd eq (untidy_of_changed grows following.keeps changed),
          fun both => absurd both.1 tidy⟩
    · exact following.scopeVars
    · intro name outside info hb
      exact following.others name outside info (hk name info hb)

theorem map_introduced (alloc : RegisterAllocator Hints) (body : Body) :
    (alloc.introduced body).map Prod.fst = body.names := by
  induction body generalizing alloc with
  | done => rfl
  | allocLocal name isMutable rest ih => exact congrArg _ (ih _)
  | allocTemp rest ih | freeTemp reg rest ih | scope inner rest _ ih => exact ih _

theorem run_scope (alloc : RegisterAllocator Hints) (inner rest : Body) :
    alloc.run (Body.scope inner rest).calls =
      (alloc.run (.enterScope :: (inner.calls ++ [.exitScope]))).run rest.calls := by
  have split : (Body.scope inner rest).calls = (.enterScope :: (inner.calls ++ [.exitScope])) ++ rest.calls := by
    show _ = _ :: ((inner.calls ++ [Call.exitScope]) ++ rest.calls)
    rw [append_assoc]
    rfl
  rw [split, run_append]

theorem Inside.nested (hin : Inside scope outer alloc) (inner : Body) :
    Inside scope outer (alloc.run (.enterScope :: (inner.calls ++ [.exitScope]))) := by
  rcases Inside.run inner (Inside.enterScope hin.stack) with ⟨last, ended, continues⟩
  have runs : alloc.run (.enterScope :: (inner.calls ++ [.exitScope])) =
      (alloc.enterScope.run inner.calls).exitScope.2 := by
    show alloc.enterScope.run (inner.calls ++ [.exitScope]) = _
    rw [run_append]
    rfl
  rw [runs]
  apply hin.keep ((scopeStack_exitScope ended.stack).trans hin.stack.symm)
  rw [lookup_exitScope ended.stack]
  exact continues.keeps

theorem Inside.introduced {body : Body} (hin : Inside scope outer alloc) (once : body.names.Nodup) :
    ∀ e ∈ alloc.introduced body, (alloc.run body.calls).getReg e.1 = some e.2 := by
  induction body generalizing alloc scope with
  | done => exact nofun
  | allocTemp rest ih =>
    have eq := lookup_allocTemp alloc
    exact ih (hin.keep eq.2 fun name info hit => eq.1 ▸ hit) once
  | freeTemp reg rest ih =>
    have eq := lookup_freeTemp alloc reg
    exact ih (hin.keep eq.2 fun name info hit => eq.1 ▸ hit) once
  | allocLocal name isMutable rest ih =>
    rcases hin.allocLocal name isMutable with ⟨next, info, entered, -, register, hit, -⟩
    rcases nodup_cons.mp once with ⟨other, once⟩
    intro e mem
    rcases mem_cons.mp mem with rfl | hl
    · rcases Inside.run rest entered with ⟨hl, -, continues⟩
      have kept := continues.others name other info ((hit name).trans (if_pos rfl))
      show ((alloc.allocLocal name isMutable).2.run rest.calls).getReg name = _
      unfold getReg
      rw [kept, ← register]
      rfl
    · exact ih entered once e hl
  | scope inner rest _ ih =>
    rw [run_scope]
    exact ih (hin.nested inner) once

theorem lookup_erase_vars {alloc hl : RegisterAllocator Hints} {name other : String}
    (erased : hl.vars = alloc.vars.erase name) :
    hl.lookup other = if other = name then none else alloc.lookup other := by
  unfold lookup
  rw [erased]
  split
  · rename_i eq
    rw [eq, AList.lookup_erase]
  · rename_i differs
    exact AList.lookup_erase_ne differs

theorem bound_of_removed (ns : List String) (alloc : RegisterAllocator Hints) :
    ∀ e ∈ (removeVars ns alloc).1, alloc.lookup e.1 ≠ none := by
  induction ns generalizing alloc with
  | nil => exact nofun
  | cons head ns ih =>
    unfold removeVars
    cases hit : alloc.lookup head with
    | none => exact ih alloc
    | some info =>
      intro e mem
      rcases mem_cons.mp mem with rfl | hl
      · rw [hit]
        exact Option.some_ne_none info
      · have hb := ih _ e hl
        rw [lookup_erase_vars rfl] at hb
        split at hb
        · exact absurd rfl hb
        · exact hb

theorem nodup_removed (ns : List String) (alloc : RegisterAllocator Hints) :
    ((removeVars ns alloc).1.map (·.1)).Nodup := by
  induction ns generalizing alloc with
  | nil => exact nodup_nil
  | cons head ns ih =>
    unfold removeVars
    cases hit : alloc.lookup head with
    | none => exact ih alloc
    | some info =>
      apply nodup_cons.mpr
      refine ⟨?_, ih _⟩
      intro mem
      rcases mem_map.mp mem with ⟨e, hin, eq⟩
      have hb := bound_of_removed ns _ e hin
      rw [lookup_erase_vars rfl, if_pos eq] at hb
      exact hb rfl

theorem removed_of_nodup {bindings : List (String × Reg)} (once : (bindings.map Prod.fst).Nodup)
    (hb : ∀ e ∈ bindings, alloc.getReg e.1 = some e.2) :
    (removeVars (bindings.map Prod.fst) alloc).1.map (fun e => (e.1, e.2.1)) = bindings := by
  induction bindings generalizing alloc with
  | nil => rfl
  | cons binding bindings ih =>
    rcases binding with ⟨name, reg⟩
    rcases nodup_cons.mp once with ⟨hf, once⟩
    have here := hb _ (.head _)
    rcases Option.map_eq_some_iff.mp here with ⟨info, hit, register⟩
    have rest : ∀ hl : RegisterAllocator Hints, hl.vars = alloc.vars.erase name →
        ∀ e ∈ bindings, hl.getReg e.1 = some e.2 := by
      intro hl erased e mem
      have differs : e.1 ≠ name := fun eq => hf (mem_map.mpr ⟨e, mem, eq⟩)
      unfold getReg
      rw [lookup_erase_vars erased, if_neg differs]
      exact hb e (.tail _ mem)
    rw [map_cons]
    unfold removeVars
    dsimp only at hit register ⊢
    rw [hit]
    dsimp only
    rw [map_cons, ih once (rest _ rfl), register]

/-- Leaving a scope restores the registers of the names and reports each binding of the scope once exactly when
    no name is bound twice in the scope, nor, if unbound at its entry, in a nested scope. -/
theorem exitScope_restores_iff (alloc : RegisterAllocator Hints) (body : Body) :
    ((∀ name, (alloc.enterScope.run body.calls).exitScope.2.getReg name = alloc.getReg name) ∧
      (alloc.enterScope.run body.calls).exitScope.1.Perm (alloc.enterScope.introduced body)) ↔
    body.names.Nodup ∧ body.Tidy {name | alloc.getReg name ≠ none} {name | alloc.getReg name ≠ none} := by
  have entered : Inside .empty alloc.scopeStack alloc.enterScope := Inside.enterScope rfl
  rcases Inside.run body entered with ⟨last, ended, continues⟩
  have reported : (alloc.enterScope.run body.calls).exitScope.1 = (removeVars (body.names)
      { alloc.enterScope.run body.calls with scopeStack := alloc.scopeStack }).1.map
        (fun entry => (entry.1, entry.2.1)) := by
    have own : last.scopeVars = body.names := continues.scopeVars
    unfold exitScope exitScopeWithHints
    rw [ended.stack, ← own]
  have once : (alloc.enterScope.run body.calls).exitScope.1.Perm (alloc.enterScope.introduced body) ↔
      body.names.Nodup := by
    rw [reported]
    constructor
    · intro perm
      have names := perm.map Prod.fst
      rw [map_introduced, map_map] at names
      exact names.nodup_iff.mp (nodup_removed ..)
    · intro once
      have all := entered.introduced once
      rw [← map_introduced alloc.enterScope body] at once ⊢
      exact .of_eq (removed_of_nodup once all)
  have sets : {name | alloc.getReg name ≠ none} = {name | alloc.lookup name ≠ none} := by
    ext name
    show (alloc.lookup name).map _ ≠ none ↔ alloc.lookup name ≠ none
    rw [Ne, Option.map_eq_none_iff]
  have restores : (∀ name, (alloc.enterScope.run body.calls).exitScope.2.getReg name = alloc.getReg name) ↔
      body.Tidy {name | alloc.lookup name ≠ none} {name | alloc.lookup name ≠ none} := by
    have law := continues.restores
    rw [← lookup_exitScope ended.stack] at law
    apply Iff.trans _ law
    constructor
    · intro same
      funext name
      cases bound : alloc.lookup name with
      | some info =>
        rw [lookup_exitScope ended.stack]
        exact (continues.keeps name info bound).trans bound.symm
      | none =>
        have unbound := same name
        unfold getReg at unbound
        rw [bound, Option.map_none, Option.map_eq_none_iff] at unbound
        exact unbound.trans bound.symm
    · intro same name
      unfold getReg
      rw [same]
      rfl
  rw [sets, once, restores]
  exact and_comm

/-- A name that was unbound stays bound when it is bound twice, and its first binding is not reported. -/
theorem exitScope_leaks_twice :
    let alloc : RegisterAllocator Unit := new
    let body : Body := .allocLocal "x" false (.allocLocal "x" true .done)
    let inside := alloc.enterScope.run body.calls
    ¬ (∀ name, inside.exitScope.2.getReg name = alloc.getReg name) ∧
      ¬ inside.exitScope.1.Perm (alloc.enterScope.introduced body) := by
  constructor
  · intro same
    exact absurd (same "x") (by decide)
  · decide

end RegisterAllocator

end Codegen
