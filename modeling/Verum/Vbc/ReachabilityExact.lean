import Verum.Vbc.Reachability

open List

namespace Vbc

namespace VbcModule

variable (m : VbcModule)

def Constructed (ids : Set UInt32) (typeId : UInt32) : Prop :=
  ∃ id ∈ ids, ∃ instruction ∈ m.body id, effect instruction = .construct typeId

def Called (ids : Set UInt32) (method : List Char) : Prop :=
  ∃ id ∈ ids, ∃ instruction ∈ m.body id, ∃ methodId name, effect instruction = .callMethod methodId ∧
    m.getString ⟨methodId⟩ = some name ∧ methodName name = method

def PlainRecord (typeId : UInt32) : Prop :=
  ∃ type name, m.typeById typeId = some type ∧ type.kind = .record ∧ m.getString type.name = some name ∧
    name ∉ structuralNames ∧ name ∉ wellKnownNames

/-- The parent type of a method is no plain record, or is constructed. -/
def Possible (constructed : UInt32 → Prop) (id : UInt32) : Prop :=
  ∀ entry parent, m.functionById id = some entry → entry.parentType = some parent → m.PlainRecord parent.id →
    constructed parent.id

/-- What a conservative set of functions contains. -/
structure Closed (extraRoots : List UInt32) (ids : Set UInt32) : Prop where
  roots : ∀ id ∈ m.rootIds extraRoots, id ∈ ids
  calls : ∀ id ∈ ids, ∀ instruction ∈ m.body id, ∀ funcId target, effect instruction = .call funcId →
    m.resolve funcId = some target → target ∈ ids
  glued : ∀ typeId type, m.Constructed ids typeId → m.typeById typeId = some type → ∀ id ∈ glue type, id ∈ ids
  methods : ∀ entry ∈ m.functions, ∀ name, m.getString entry.name = some name → m.Called ids (bareName name) →
    m.Possible (m.Constructed ids) entry.id.id → entry.id.id ∈ ids

theorem candidatePossible_iff (constructed : Finset UInt32) (id : UInt32) :
    m.candidatePossible constructed id = true ↔ m.Possible (· ∈ constructed) id := by
  unfold candidatePossible Possible
  cases hit : m.functionById id with
  | none => exact iff_of_true rfl nofun
  | some e =>
    dsimp only
    cases typed : e.parentType with
    | none =>
      apply iff_of_true rfl
      intro other type eq par
      cases eq
      rw [typed] at par
      cases par
    | some par =>
      have one : (∀ entry' parent', some e = some entry' → entry'.parentType = some parent' →
          m.PlainRecord parent'.id → parent'.id ∈ constructed) ↔
          (m.PlainRecord par.id → par.id ∈ constructed) := by
        constructor
        · exact fun all => all e par rfl typed
        · intro here entry' parent' eq typed'
          cases eq
          rw [typed] at typed'
          cases typed'
          exact here
      rw [one, Bool.or_eq_true, decide_eq_true_eq]
      refine (or_congr_right (c := ¬ m.PlainRecord par.id) ?_).trans ⟨?_, ?_⟩
      · unfold PlainRecord
        cases m.typeById par.id with
        | none => exact iff_of_true rfl (by rintro ⟨type, name, eq, -⟩; cases eq)
        | some type =>
          dsimp only
          cases named : m.getString type.name with
          | none =>
            apply iff_of_true (Bool.or_true _)
            rintro ⟨other, name, eq, -, text, -⟩
            cases eq
            rw [named] at text
            cases text
          | some name =>
            rw [Bool.or_eq_true, Bool.or_eq_true, contains_iff_mem, contains_iff_mem, bne_iff_ne]
            constructor
            · rintro kept ⟨other, text, eq, record, named', structural, known⟩
              cases eq
              rw [named] at named'
              cases named'
              rcases kept with (kept | kept) | kept
              · exact structural kept
              · exact kept record
              · exact known kept
            · intro other
              by_contra pruned
              rw [not_or, not_or, Classical.not_not] at pruned
              exact other ⟨type, name, rfl, pruned.1.2, named, pruned.1.1, pruned.2⟩
      · exact fun either record => either.elim (fun built => built) fun none => absurd record none
      · intro rule
        by_cases record : m.PlainRecord par.id
        · exact .inl (rule record)
        · exact .inr record

end VbcModule

/-- What a later state of the walk keeps: everything found, and what is new is queued. -/
structure Walk.Grows (before after : Walk) : Prop where
  ids : before.1.reachableIds ⊆ after.1.reachableIds
  called : before.1.calledMethodNames ⊆ after.1.calledMethodNames
  types : before.1.reachableTypeIds ⊆ after.1.reachableTypeIds
  queue : before.2 ⊆ after.2
  fresh : ∀ id ∈ after.1.reachableIds, id ∈ before.1.reachableIds ∨ id ∈ after.2

namespace Walk.Grows

variable {fst snd third : Walk}

theorem refl (walk : Walk) : walk.Grows walk :=
  ⟨Finset.Subset.refl _, Finset.Subset.refl _, Finset.Subset.refl _, List.Subset.refl _, fun _ => .inl⟩

theorem trans (one : fst.Grows snd) (two : snd.Grows third) : fst.Grows third where
  ids := one.ids.trans two.ids
  called := one.called.trans two.called
  types := one.types.trans two.types
  queue := List.Subset.trans one.queue two.queue
  fresh := by
    intro id mem
    rcases two.fresh id mem with mid | queued
    · rcases one.fresh id mid with old | queued
      · exact .inl old
      · exact .inr (two.queue queued)
    · exact .inr queued

end Walk.Grows

theorem Walk.push_grows (walk : Walk) (id : UInt32) : walk.Grows (walk.push id) := by
  unfold Walk.push
  split
  · exact .refl walk
  · refine ⟨Finset.subset_insert .., Finset.Subset.refl _, Finset.Subset.refl _, subset_append_left .., ?_⟩
    intro other mem
    rcases Finset.mem_insert.mp mem with rfl | old
    · exact .inr (mem_append_right _ (mem_singleton_self _))
    · exact .inl old

theorem Walk.foldl_push_grows (ids : List UInt32) (walk : Walk) : walk.Grows (ids.foldl Walk.push walk) := by
  induction ids generalizing walk with
  | nil => exact .refl walk
  | cons id ids ih => exact (walk.push_grows id).trans (ih _)

theorem Walk.foldl_push_types (ids : List UInt32) (walk : Walk) :
    (ids.foldl Walk.push walk).1.reachableTypeIds = walk.1.reachableTypeIds := by
  induction ids generalizing walk with
  | nil => rfl
  | cons id ids ih =>
    rw [foldl_cons, ih]
    unfold Walk.push
    split
    · rfl
    · rfl

namespace VbcModule

variable (m : VbcModule)

def Done (out : Reachability) : Effect → Prop
  | .call funcId => ∀ target, m.resolve funcId = some target → target ∈ out.reachableIds
  | .construct typeId => typeId ∈ out.reachableTypeIds
  | .callMethod methodId => ∀ name, m.getString ⟨methodId⟩ = some name → methodName name ∈ out.calledMethodNames
  | .none => True

def Glued (out : Reachability) : Prop :=
  ∀ typeId ∈ out.reachableTypeIds, ∀ type, m.typeById typeId = some type → ∀ id ∈ glue type, id ∈ out.reachableIds

variable {m}
variable {before after walk : Walk} {out : Reachability} {id : UInt32} {queue : List UInt32}
  {buckets : List (List Char × List UInt32)}

theorem Done.mono {effect : Effect} (done : m.Done before.1 effect) (grows : before.Grows after) :
    m.Done after.1 effect := by
  cases effect with
  | call funcId => exact fun tgt resolved => grows.ids (done tgt resolved)
  | construct typeId => exact grows.types done
  | callMethod methodId => exact fun name hit => grows.called (done name hit)
  | none => trivial

theorem Glued.keep (glued : m.Glued before.1) (grows : before.Grows after)
    (types : after.1.reachableTypeIds = before.1.reachableTypeIds) : m.Glued after.1 := by
  intro typeId mem type hit id listed
  rw [types] at mem
  exact grows.ids (glued typeId mem type hit id listed)

theorem scan_spec (glued : m.Glued walk.1) (instr : Instruction) :
    walk.Grows (m.scan walk instr) ∧ m.Glued (m.scan walk instr).1 ∧
      m.Done (m.scan walk instr).1 (effect instr) := by
  unfold scan
  cases effect instr with
  | call funcId =>
    dsimp only
    cases resolved : m.resolve funcId with
    | none =>
      refine ⟨.refl walk, glued, ?_⟩
      intro tgt eq
      rw [resolved] at eq
      cases eq
    | some rid =>
      refine ⟨walk.push_grows rid, glued.keep (walk.push_grows rid) (Walk.foldl_push_types [rid] walk), ?_⟩
      intro tgt eq
      rw [resolved] at eq
      cases eq
      exact mem_push_self walk rid
  | construct typeId =>
    dsimp only
    split
    · rename_i known
      exact ⟨.refl walk, glued, known⟩
    · have marked : walk.Grows
          ({ walk.1 with reachableTypeIds := insert typeId walk.1.reachableTypeIds }, walk.2) :=
        ⟨Finset.Subset.refl _, Finset.Subset.refl _, Finset.subset_insert .., List.Subset.refl _, fun _ => .inl⟩
      cases hit : m.typeById typeId with
      | none =>
        refine ⟨marked, ?_, Finset.mem_insert_self ..⟩
        intro other mem type e id listed
        rcases Finset.mem_insert.mp mem with rfl | old
        · rw [hit] at e
          cases e
        · exact glued other old type e id listed
      | some e =>
        have pushed := Walk.foldl_push_grows (glue e)
          ({ walk.1 with reachableTypeIds := insert typeId walk.1.reachableTypeIds }, walk.2)
        have types := Walk.foldl_push_types (glue e)
          ({ walk.1 with reachableTypeIds := insert typeId walk.1.reachableTypeIds }, walk.2)
        refine ⟨marked.trans pushed, ?_, pushed.types (Finset.mem_insert_self ..)⟩
        intro other mem type typed id listed
        rw [types] at mem
        rcases Finset.mem_insert.mp mem with rfl | old
        · rw [hit] at typed
          cases typed
          exact mem_foldl_push _ listed
        · exact pushed.ids (glued other old type typed id listed)
  | callMethod methodId =>
    dsimp only
    cases named : m.getString ⟨methodId⟩ with
    | none =>
      refine ⟨.refl walk, glued, ?_⟩
      intro name eq
      rw [named] at eq
      cases eq
    | some name =>
      refine ⟨⟨Finset.Subset.refl _, Finset.subset_insert .., Finset.Subset.refl _, List.Subset.refl _,
        fun _ => .inl⟩, glued, ?_⟩
      intro other eq
      rw [named] at eq
      cases eq
      exact Finset.mem_insert_self ..
  | none => exact ⟨.refl walk, glued, trivial⟩

theorem foldl_scan_spec (instrs : List Instruction) (walk : Walk) (glued : m.Glued walk.1) :
    walk.Grows (instrs.foldl m.scan walk) ∧ m.Glued (instrs.foldl m.scan walk).1 ∧
      ∀ instr ∈ instrs, m.Done (instrs.foldl m.scan walk).1 (effect instr) := by
  induction instrs generalizing walk with
  | nil => exact ⟨.refl walk, glued, fun _ mem => absurd mem not_mem_nil⟩
  | cons instr instrs ih =>
    rcases scan_spec glued instr with ⟨grows, kept, done⟩
    rcases ih _ kept with ⟨further, last, rest⟩
    refine ⟨grows.trans further, last, ?_⟩
    intro other mem
    rcases mem_cons.mp mem with rfl | hl
    · exact done.mono further
    · exact rest other hl

/-- What is found is queued, or its whole body is recorded. -/
structure Settled (m : VbcModule) (walk : Walk) : Prop where
  glued : m.Glued walk.1
  visited : ∀ id ∈ walk.1.reachableIds, id ∈ walk.2 ∨ ∀ instruction ∈ m.body id, m.Done walk.1 (effect instruction)

theorem Settled.push (settled : m.Settled walk) (ids : List UInt32) : m.Settled (ids.foldl Walk.push walk) := by
  have grows := Walk.foldl_push_grows ids walk
  refine ⟨settled.glued.keep grows (Walk.foldl_push_types ids walk), ?_⟩
  intro id mem
  rcases grows.fresh id mem with old | queued
  · rcases settled.visited id old with queued | done
    · exact .inl (grows.queue queued)
    · exact .inr fun instr hin => (done instr hin).mono grows
  · exact .inl queued

theorem recordName_grows (id : UInt32) (walk : Walk) :
    walk.Grows (m.recordName id walk) ∧ (m.recordName id walk).1.reachableTypeIds = walk.1.reachableTypeIds := by
  unfold recordName
  split
  · refine ⟨?_, rfl⟩
    exact ⟨Finset.Subset.refl _, Finset.Subset.refl _, Finset.Subset.refl _, List.Subset.refl _, fun _ => .inl⟩
  · exact ⟨.refl walk, rfl⟩

theorem Settled.visit (settled : m.Settled (out, id :: queue)) : m.Settled (m.visit id (out, queue)) := by
  have named := recordName_grows (m := m) id (out, queue)
  have kept : m.Glued (out, queue).1 := settled.glued
  rcases foldl_scan_spec (m.body id) (m.recordName id (out, queue)) (kept.keep named.1 named.2)
    with ⟨grows, glued, done⟩
  have whole := named.1.trans grows
  refine ⟨glued, ?_⟩
  intro other mem
  rcases whole.fresh other mem with old | queued
  · rcases settled.visited other old with waiting | finished
    · rcases mem_cons.mp waiting with rfl | waiting
      · exact .inr done
      · exact .inl (whole.queue waiting)
    · right
      intro instr hin
      have recorded : m.Done (out, queue).1 (effect instr) := finished instr hin
      exact recorded.mono whole
  · exact .inl queued

theorem Settled.drain (settled : m.Settled walk) : m.Settled (m.drain walk, []) := by
  induction walk using drain.induct m with
  | case1 out =>
    unfold VbcModule.drain
    exact settled
  | case2 out id queue ih =>
    unfold VbcModule.drain
    exact ih settled.visit

theorem Settled.close (settled : m.Settled (out, [])) : m.Settled (m.close buckets out, []) := by
  induction out using close.induct m buckets with
  | case1 out none =>
    unfold VbcModule.close
    rw [if_pos none]
    exact settled
  | case2 out left ih =>
    unfold VbcModule.close
    rw [if_neg left]
    exact ih (settled.push _).drain

theorem candidates_close (buckets : List (List Char × List UInt32)) (out : Reachability) :
    m.candidates buckets (m.close buckets out) = [] := by
  induction out using close.induct m buckets with
  | case1 out none =>
    unfold VbcModule.close
    rw [if_pos none]
    exact none
  | case2 out left ih =>
    unfold VbcModule.close
    rw [if_neg left]
    exact ih

/-- Everything found lies in a set, and what is called and constructed is so by its members. -/
structure Within (m : VbcModule) (ids : Set UInt32) (walk : Walk) : Prop where
  found : ∀ id ∈ walk.1.reachableIds, id ∈ ids
  queued : ∀ id ∈ walk.2, id ∈ ids
  called : ∀ method ∈ walk.1.calledMethodNames, m.Called ids method
  types : ∀ typeId ∈ walk.1.reachableTypeIds, m.Constructed ids typeId

variable {extraRoots : List UInt32} {ids : Set UInt32}

theorem Within.push (hw : m.Within ids walk) (mem : id ∈ ids) : m.Within ids (walk.push id) := by
  unfold Walk.push
  split
  · exact hw
  · refine ⟨?_, ?_, hw.called, hw.types⟩
    · intro other hin
      rcases Finset.mem_insert.mp hin with rfl | old
      · exact mem
      · exact hw.found other old
    · intro other hin
      rcases mem_append.mp hin with old | new
      · exact hw.queued other old
      · exact mem_singleton.mp new ▸ mem

theorem Within.foldl_push (hw : m.Within ids walk) {new : List UInt32} (ms : ∀ id ∈ new, id ∈ ids) :
    m.Within ids (new.foldl Walk.push walk) := by
  induction new generalizing walk with
  | nil => exact hw
  | cons id new ih =>
    have rest : ∀ other ∈ new, other ∈ ids := fun other hl => ms other (.tail _ hl)
    exact ih (hw.push (ms id mem_cons_self)) rest

theorem Within.scan (hc : m.Closed extraRoots ids) (hw : m.Within ids walk) (mem : id ∈ ids)
    {instr : Instruction} (hin : instr ∈ m.body id) : m.Within ids (m.scan walk instr) := by
  unfold VbcModule.scan
  cases kind : effect instr with
  | call funcId =>
    dsimp only
    cases resolved : m.resolve funcId with
    | none => exact hw
    | some rid => exact hw.push (hc.calls id mem instr hin funcId rid kind resolved)
  | construct typeId =>
    have built : m.Constructed ids typeId := ⟨id, mem, instr, hin, kind⟩
    have marked : m.Within ids
        ({ walk.1 with reachableTypeIds := insert typeId walk.1.reachableTypeIds }, walk.2) := by
      refine ⟨hw.found, hw.queued, hw.called, ?_⟩
      intro other hin
      rcases Finset.mem_insert.mp hin with rfl | old
      · exact built
      · exact hw.types other old
    dsimp only
    split
    · exact hw
    · cases hit : m.typeById typeId with
      | none => exact marked
      | some e => exact marked.foldl_push (hc.glued typeId e built hit)
  | callMethod methodId =>
    dsimp only
    cases named : m.getString ⟨methodId⟩ with
    | none => exact hw
    | some name =>
      refine ⟨hw.found, hw.queued, ?_, hw.types⟩
      intro method inserted
      rcases Finset.mem_insert.mp inserted with rfl | old
      · exact ⟨id, mem, instr, hin, methodId, name, kind, named, rfl⟩
      · exact hw.called method old
  | none => exact hw

theorem Within.visit (hc : m.Closed extraRoots ids) (hw : m.Within ids (out, id :: queue)) :
    m.Within ids (m.visit id (out, queue)) := by
  have mem := hw.queued id (.head _)
  have popped : m.Within ids (out, queue) :=
    ⟨hw.found, fun other hin => hw.queued other (.tail _ hin), hw.called,
      hw.types⟩
  have named : m.Within ids (m.recordName id (out, queue)) := by
    unfold recordName
    split
    · exact ⟨popped.found, popped.queued, popped.called, popped.types⟩
    · exact popped
  have all : ∀ (instrs : List Instruction) (walk : Walk),
      (∀ instr ∈ instrs, instr ∈ m.body id) → m.Within ids walk →
      m.Within ids (instrs.foldl m.scan walk) := by
    intro instrs
    induction instrs with
    | nil => exact fun walk _ hw => hw
    | cons instr instrs ih =>
      intro walk hin hw
      exact ih _ (fun other hl => hin other (.tail _ hl))
        (hw.scan hc mem (hin instr mem_cons_self))
  exact all (m.body id) _ (fun _ hin => hin) named

theorem Within.drain (hc : m.Closed extraRoots ids) (hw : m.Within ids walk) :
    m.Within ids (m.drain walk, []) := by
  induction walk using drain.induct m with
  | case1 out =>
    unfold VbcModule.drain
    exact hw
  | case2 out id queue ih =>
    unfold VbcModule.drain
    exact ih (hw.visit hc)

theorem mem_buckets (perm : buckets.Perm m.byBareName) {bare : List Char} :
    (∃ bucket ∈ buckets, bucket.1 = bare ∧ id ∈ bucket.2) ↔
      ∃ e ∈ m.functions, ∃ name,
        m.getString e.name = some name ∧ bareName name = bare ∧ e.id.id = id := by
  have named : ∀ pair : List Char × UInt32,
      pair ∈ m.functions.filterMap (fun e =>
          (m.getString e.name).map fun name => (bareName name, e.id.id)) ↔
        ∃ e ∈ m.functions, ∃ name,
          m.getString e.name = some name ∧ (bareName name, e.id.id) = pair := by
    intro pair
    rw [mem_filterMap]
    constructor
    · rintro ⟨e, hin, mapped⟩
      rcases Option.map_eq_some_iff.mp mapped with ⟨name, hit, eq⟩
      exact ⟨e, hin, name, hit, eq⟩
    · rintro ⟨e, hin, name, hit, eq⟩
      exact ⟨e, hin, Option.map_eq_some_iff.mpr ⟨name, hit, eq⟩⟩
  constructor
  · rintro ⟨bucket, hin, rfl, listed⟩
    rcases mem_map.mp (perm.mem_iff.mp hin) with ⟨bare, -, rfl⟩
    rcases mem_map.mp listed with ⟨pair, kept, rfl⟩
    rcases mem_filter.mp kept with ⟨mem, eq⟩
    rcases (named pair).mp mem with ⟨e, known, name, hit, rfl⟩
    exact ⟨e, known, name, hit, eq_of_beq eq, rfl⟩
  · rintro ⟨e, known, name, hit, rfl, rfl⟩
    have mem := (named (bareName name, e.id.id)).mpr ⟨e, known, name, hit, rfl⟩
    refine ⟨_, perm.mem_iff.mpr (mem_map.mpr ⟨bareName name, ?_, rfl⟩), rfl, ?_⟩
    · exact mem_dedup.mpr (mem_map.mpr ⟨_, mem, rfl⟩)
    · exact mem_map.mpr ⟨_, mem_filter.mpr ⟨mem, beq_self_eq_true _⟩, rfl⟩

theorem Within.close (perm : buckets.Perm m.byBareName) (hc : m.Closed extraRoots ids)
    (hw : m.Within ids (out, [])) : m.Within ids (m.close buckets out, []) := by
  induction out using close.induct m buckets with
  | case1 out none =>
    unfold VbcModule.close
    rw [if_pos none]
    exact hw
  | case2 out left ih =>
    unfold VbcModule.close
    rw [if_neg left]
    apply ih
    apply Within.drain hc
    apply hw.foldl_push
    intro id mem
    rcases m.mem_candidates.mp mem with ⟨⟨bucket, hin, called, listed⟩, -, possible⟩
    rcases (mem_buckets perm).mp ⟨bucket, hin, rfl, listed⟩ with ⟨e, known, name, named, bare, rfl⟩
    apply hc.methods e known name named (bare ▸ hw.called _ called)
    intro other par hit typed record
    exact hw.types _ ((m.candidatePossible_iff _ _).mp possible other par hit typed record)

theorem subset_close (buckets : List (List Char × List UInt32)) (out : Reachability) :
    out.reachableIds ⊆ (m.close buckets out).reachableIds := by
  induction out using close.induct m buckets with
  | case1 out none =>
    unfold VbcModule.close
    rw [if_pos none]
  | case2 out left ih =>
    unfold VbcModule.close
    rw [if_neg left]
    exact (m.subset_round _ out).trans ih

theorem Settled.closed (perm : buckets.Perm m.byBareName) (settled : m.Settled (out, []))
    (none : m.candidates buckets out = []) (roots : ∀ id ∈ m.rootIds extraRoots, id ∈ out.reachableIds) :
    m.Closed extraRoots {id | id ∈ out.reachableIds} := by
  have done : ∀ id ∈ out.reachableIds, ∀ instr ∈ m.body id, m.Done out (effect instr) := by
    intro id mem
    rcases settled.visited id mem with queued | finished
    · exact absurd queued not_mem_nil
    · exact finished
  have built : ∀ typeId, m.Constructed {id | id ∈ out.reachableIds} typeId → typeId ∈ out.reachableTypeIds := by
    rintro typeId ⟨id, mem, instr, hin, kind⟩
    have recorded := done id mem instr hin
    rw [kind] at recorded
    exact recorded
  refine ⟨roots, ?_, ?_, ?_⟩
  · intro id mem instr hin funcId tgt kind resolved
    have recorded := done id mem instr hin
    rw [kind] at recorded
    exact recorded tgt resolved
  · intro typeId type constructed hit id listed
    exact settled.glued typeId (built typeId constructed) type hit id listed
  · rintro e known name named ⟨id, mem, instr, hin, methodId, text, kind, called, eq⟩ possible
    have recorded := done id mem instr hin
    rw [kind] at recorded
    have asked : bareName name ∈ out.calledMethodNames := eq ▸ recorded text called
    rcases (mem_buckets perm).mpr ⟨e, known, name, named, rfl, rfl⟩ with ⟨bucket, listed, bare, candidate⟩
    by_contra missing
    have allowed : m.candidatePossible out.reachableTypeIds e.id.id = true := by
      apply (m.candidatePossible_iff _ _).mpr
      intro other par hit typed record
      exact built _ (possible other par hit typed record)
    have left : e.id.id ∈ m.candidates buckets out :=
      m.mem_candidates.mpr ⟨⟨bucket, listed, bare.symm ▸ asked, candidate⟩, missing, allowed⟩
    rw [none] at left
    cases left

theorem analyzeWithRoots_closed (m : VbcModule) (extraRoots : List UInt32) (perm : buckets.Perm m.byBareName) :
    m.Closed extraRoots {id | id ∈ (m.analyzeWithRoots buckets extraRoots).reachableIds} := by
  have start : m.Settled ((⟨∅, ∅, ∅, ∅⟩, []) : Walk) :=
    ⟨fun _ mem => absurd mem (Finset.notMem_empty _), fun _ mem => absurd mem (Finset.notMem_empty _)⟩
  apply (start.push (m.rootIds extraRoots)).drain.close.closed perm (candidates_close buckets _)
  intro id mem
  exact subset_close buckets _ (m.subset_drain _ (mem_foldl_push _ mem))

theorem analyzeWithRoots_subset (m : VbcModule) (extraRoots : List UInt32) (perm : buckets.Perm m.byBareName)
    {ids : Set UInt32} (hc : m.Closed extraRoots ids) :
    ∀ id ∈ (m.analyzeWithRoots buckets extraRoots).reachableIds, id ∈ ids := by
  have start : m.Within ids ((⟨∅, ∅, ∅, ∅⟩, []) : Walk) :=
    ⟨fun _ mem => absurd mem (Finset.notMem_empty _), nofun,
      fun _ mem => absurd mem (Finset.notMem_empty _), fun _ mem => absurd mem (Finset.notMem_empty _)⟩
  exact (((start.foldl_push hc.roots).drain hc).close perm hc).found

/-- The functions found are the least conservative set, in whatever order the bare names are met. -/
theorem analyzeWithRoots_least (m : VbcModule) (extraRoots : List UInt32)
    (buckets : List (List Char × List UInt32)) (perm : buckets.Perm m.byBareName) :
    let found := (m.analyzeWithRoots buckets extraRoots).reachableIds
    m.Closed extraRoots {id | id ∈ found} ∧ (∀ ids, m.Closed extraRoots ids → ∀ id ∈ found, id ∈ ids) ∧
      ∀ others : List (List Char × List UInt32), others.Perm m.byBareName →
        (m.analyzeWithRoots others extraRoots).reachableIds = found := by
  intro found
  have closed := m.analyzeWithRoots_closed extraRoots perm
  refine ⟨closed, fun ids => m.analyzeWithRoots_subset extraRoots perm, ?_⟩
  intro others order
  apply Finset.Subset.antisymm
  · exact m.analyzeWithRoots_subset extraRoots order closed
  · exact m.analyzeWithRoots_subset extraRoots perm (m.analyzeWithRoots_closed extraRoots order)

def gadgetModule : VbcModule where
  strings := [(⟨0⟩, "main"), (⟨1⟩, "Gadget.tick"), (⟨2⟩, "tick"), (⟨3⟩, "Gadget")]
  functions := [⟨⟨0⟩, ⟨0⟩, none, some [.callM ⟨0⟩ ⟨0⟩ 2 ⟨⟨0⟩, 0⟩, .new ⟨0⟩ 7 0], 0⟩,
    ⟨⟨1⟩, ⟨1⟩, some ⟨7⟩, some [], 0⟩]
  externalFunctionNames := []
  types := [⟨⟨7⟩, ⟨3⟩, .record, none, none, []⟩]
  constants := []
  globalCtors := []
  globalDtors := []
  mountAliases := []

theorem analyzeWithRoots_least_gadget :
    let found := (gadgetModule.analyzeWithRoots gadgetModule.byBareName.reverse [0]).reachableIds
    gadgetModule.Closed [0] {id | id ∈ found} ∧ (∀ ids, gadgetModule.Closed [0] ids → ∀ id ∈ found, id ∈ ids) ∧
      ∀ others : List (List Char × List UInt32), others.Perm gadgetModule.byBareName →
        (gadgetModule.analyzeWithRoots others [0]).reachableIds = found :=
  analyzeWithRoots_least gadgetModule [0] gadgetModule.byBareName.reverse (reverse_perm _)

end VbcModule

end Vbc
