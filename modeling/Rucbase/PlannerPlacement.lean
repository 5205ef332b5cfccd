import Rucbase.Planner
import Mathlib.Data.List.Perm.Basic
import Mathlib.Data.List.Forall2
import Mathlib.Data.List.Nodup

/-! Where the planner puts the conditions of a SELECT. -/
namespace Rucbase

open ScanPlan

namespace Plan

/-- The scans of a plan, from left to right. -/
def scans : Plan → List ScanPlan
  | .scan plan => [plan]
  | .join left right _ => left.scans ++ right.scans

def tables (plan : Plan) : List String := plan.scans.map tabName

def joinConds : Plan → List Condition
  | .scan _ => []
  | .join left right conds => conds ++ (left.joinConds ++ right.joinConds)

def conds (plan : Plan) : List Condition := plan.scans.flatMap ScanPlan.conds ++ plan.joinConds

/-- Every condition at a join compares a column from its left with one from its right. -/
def JoinsFit : Plan → Prop
  | .scan _ => True
  | .join left right conds => (∀ cond ∈ conds, cond.isRhsVal = false ∧ cond.lhsCol.tabName ∈ left.tables ∧
      cond.rhsCol.tabName ∈ right.tables) ∧ left.JoinsFit ∧ right.JoinsFit

/-- A plan with one node left out. -/
inductive Context where
  | here
  | inLeft (ctx : Context) (right : Plan) (conds : List Condition)
  | inRight (left : Plan) (ctx : Context) (conds : List Condition)

def Context.fill : Context → Plan → Plan
  | .here, plan => plan
  | .inLeft ctx right conds, plan => .join (ctx.fill plan) right conds
  | .inRight left ctx conds, plan => .join left (ctx.fill plan) conds

/-- The two subplans have one table of the condition each. -/
def Separates (left right : Plan) (cond : Condition) : Prop :=
  cond.lhsCol.tabName ∈ left.tables ∧ cond.rhsCol.tabName ∈ right.tables ∨
    cond.rhsCol.tabName ∈ left.tables ∧ cond.lhsCol.tabName ∈ right.tables

end Plan

namespace Planner

/-- The condition itself or the same one read from right to left. -/
def Mirrors (cond other : Condition) : Prop := other = cond ∨ other = cond.swap

/-- All columns of the condition are of this table. -/
def OnTable (tabName : String) (cond : Condition) : Prop :=
  cond.lhsCol.tabName = tabName ∧ (cond.isRhsVal = true ∨ cond.rhsCol.tabName = tabName)

/-- The conditions `conds`, each of them once, in some order and possibly mirrored. -/
def Once (conds placed : List Condition) : Prop :=
  ∃ same, List.Forall₂ Mirrors conds same ∧ same.Perm placed

/-- Each table is scanned once, and each condition stands where it can be evaluated. -/
structure PlannedOnce (tables : List String) (conds : List Condition) (plan : Plan) : Prop where
  scanned : plan.tables.Perm tables
  once : Once conds plan.conds
  atScan : ∀ scan ∈ plan.scans, ∀ cond ∈ scan.conds, OnTable scan.tabName cond
  atJoin : plan.JoinsFit

/-- What the analyzer gives: columns of the query's tables, and no column beside a value. -/
structure Analyzed (tables : List String) (cond : Condition) : Prop where
  lhs : cond.lhsCol.tabName ∈ tables
  rhs : cond.isRhsVal = false → cond.rhsCol.tabName ∈ tables
  value : cond.isRhsVal = true → cond.rhsCol.tabName = ""

variable {cond : Condition} {conds' : List Condition} {table : String}

section Once

variable {conds placed : List Condition} {cond other : Condition}

theorem Once.nil : Once [] [] := ⟨[],.nil,.nil⟩

theorem Once.perm (once : Once conds placed) {others : List Condition} (same : placed.Perm others) :
    Once conds others := by
  obtain ⟨list,mirrored,perm⟩ := once
  exact ⟨list,mirrored,perm.trans same⟩

theorem Once.append (once : Once conds placed) {placed' : List Condition} (more : Once conds' placed') :
    Once (conds ++ conds') (placed ++ placed') := by
  obtain ⟨list,mirrored,perm⟩ := once
  obtain ⟨list',mirrored',perm'⟩ := more
  exact ⟨list ++ list',List.rel_append mirrored mirrored',perm.append perm'⟩

theorem Once.single (mirrors : Mirrors cond other) : Once [cond] [other] :=
  ⟨[other],.cons mirrors .nil,.refl _⟩

theorem Once.refl (conds : List Condition) : Once conds conds :=
  ⟨conds,List.forall₂_same.mpr fun _ _ => .inl rfl,.refl _⟩

theorem Once.of_perm (same : conds.Perm conds') (once : Once conds' placed) : Once conds placed := by
  obtain ⟨list,mirrored,perm⟩ := once
  obtain ⟨list',mirrored',perm'⟩ := List.perm_comp_forall₂ same mirrored
  exact ⟨list',mirrored',perm'.trans perm⟩

end Once

section Push

variable {cond : Condition}

theorem tables_join (left right : Plan) (conds : List Condition) :
    (Plan.join left right conds).tables = left.tables ++ right.tables := List.map_append ..

theorem pushConds_missing (plan : Plan) (distinct : plan.tables.Nodup)
    (missing : cond.lhsCol.tabName ∈ plan.tables → cond.rhsCol.tabName ∉ plan.tables) :
    pushConds cond plan = (if cond.lhsCol.tabName ∈ plan.tables then 1
      else if cond.rhsCol.tabName ∈ plan.tables then 2 else 0,plan) := by
  induction plan with
  | scan plan =>
    simp only [pushConds,Plan.tables,Plan.scans,List.map_cons,List.map_nil,List.mem_singleton,eq_comm]
    split_ifs <;> rfl
  | join left right conds leftIh rightIh =>
    rw [tables_join] at distinct missing ⊢
    obtain ⟨leftDistinct,rightDistinct,disjoint⟩ := List.nodup_append.mp distinct
    simp only [List.mem_append] at missing ⊢
    have leftPart := leftIh leftDistinct fun inside other => missing (.inl inside) (.inl other)
    have rightPart := rightIh rightDistinct fun inside other => missing (.inr inside) (.inr other)
    have notTwice : ∀ t, t ∈ left.tables → t ∉ right.tables := fun t inside other =>
      disjoint t inside t other rfl
    have lhs := notTwice cond.lhsCol.tabName
    have rhs := notTwice cond.rhsCol.tabName
    rw [pushConds,leftPart,rightPart]
    by_cases lhsLeft : cond.lhsCol.tabName ∈ left.tables <;>
      by_cases lhsRight : cond.lhsCol.tabName ∈ right.tables <;>
      by_cases rhsLeft : cond.rhsCol.tabName ∈ left.tables <;>
      by_cases rhsRight : cond.rhsCol.tabName ∈ right.tables <;>
      simp_all

theorem fill_tables {plan : Plan} (member : table ∈ plan.tables) (ctx : Plan.Context) :
    table ∈ (ctx.fill plan).tables := by
  induction ctx with
  | here => exact member
  | inLeft ctx right conds ih => exact tables_join _ right conds ▸ List.mem_append_left _ ih
  | inRight left ctx conds ih => exact tables_join left _ conds ▸ List.mem_append_right _ ih

theorem separates_both {left right : Plan} (separates : Plan.Separates left right cond) (ctx : Plan.Context)
    (conds : List Condition) : cond.lhsCol.tabName ∈ (ctx.fill (.join left right conds)).tables ∧
      cond.rhsCol.tabName ∈ (ctx.fill (.join left right conds)).tables := by
  refine ⟨fill_tables ?_ ctx,fill_tables ?_ ctx⟩
  · rw [tables_join,List.mem_append]
    exact separates.elim (fun both => .inl both.1) fun both => .inr both.2
  · rw [tables_join,List.mem_append]
    exact separates.elim (fun both => .inr both.2) fun both => .inl both.1

/-- Two tables meet at one join only. -/
theorem separates_once {ctx ctx' : Plan.Context} {left right left' right' : Plan} {conds : List Condition}
    (distinct : (ctx.fill (.join left right conds)).tables.Nodup)
    (same : ctx.fill (.join left right conds) = ctx'.fill (.join left' right' conds'))
    (separates : Plan.Separates left right cond) (separates' : Plan.Separates left' right' cond) :
    ctx = ctx' ∧ left = left' ∧ right = right' ∧ conds = conds' := by
  -- a join further up has both tables on one side
  have aside {a b : Plan} (split : (a.tables ++ b.tables).Nodup) (sep : Plan.Separates a b cond) :
      ¬(cond.lhsCol.tabName ∈ a.tables ∧ cond.rhsCol.tabName ∈ a.tables) ∧
        ¬(cond.lhsCol.tabName ∈ b.tables ∧ cond.rhsCol.tabName ∈ b.tables) := by
    have disjoint := (List.nodup_append.mp split).2.2
    refine ⟨fun both => ?_,fun both => ?_⟩
    · exact sep.elim (fun here => disjoint _ both.2 _ here.2 rfl) fun here => disjoint _ both.1 _ here.2 rfl
    · exact sep.elim (fun here => disjoint _ here.1 _ both.1 rfl) fun here => disjoint _ here.1 _ both.2 rfl
  induction ctx generalizing ctx' with
  | here =>
    rw [Plan.Context.fill,tables_join] at distinct
    cases ctx' with
    | here =>
      obtain ⟨rfl,rfl,rfl⟩ := Plan.join.inj same
      exact ⟨rfl,rfl,rfl,rfl⟩
    | inLeft ctx' other more =>
      obtain ⟨rfl,rfl,rfl⟩ := Plan.join.inj same
      exact absurd (separates_both separates' ctx' conds') (aside distinct separates).1
    | inRight other ctx' more =>
      obtain ⟨rfl,rfl,rfl⟩ := Plan.join.inj same
      exact absurd (separates_both separates' ctx' conds') (aside distinct separates).2
  | inLeft ctx beside above ih =>
    rw [Plan.Context.fill,tables_join] at distinct
    cases ctx' with
    | here =>
      obtain ⟨rfl,rfl,rfl⟩ := Plan.join.inj same
      exact absurd (separates_both separates ctx conds) (aside distinct separates').1
    | inLeft ctx' other more =>
      obtain ⟨below,rfl,rfl⟩ := Plan.join.inj same
      obtain ⟨rfl,others⟩ := ih (List.nodup_append.mp distinct).1 below
      exact ⟨rfl,others⟩
    | inRight other ctx' more =>
      obtain ⟨rfl,rfl,rfl⟩ := Plan.join.inj same
      have disjoint := (List.nodup_append.mp distinct).2.2
      exact absurd rfl (disjoint _ (separates_both separates ctx conds).1 _ (separates_both separates' ctx' conds').1)
  | inRight beside ctx above ih =>
    rw [Plan.Context.fill,tables_join] at distinct
    cases ctx' with
    | here =>
      obtain ⟨rfl,rfl,rfl⟩ := Plan.join.inj same
      exact absurd (separates_both separates ctx conds) (aside distinct separates').2
    | inLeft ctx' other more =>
      obtain ⟨rfl,rfl,rfl⟩ := Plan.join.inj same
      have disjoint := (List.nodup_append.mp distinct).2.2
      exact absurd rfl (disjoint _ (separates_both separates' ctx' conds').1 _ (separates_both separates ctx conds).1)
    | inRight other ctx' more =>
      obtain ⟨rfl,below,rfl⟩ := Plan.join.inj same
      obtain ⟨rfl,others⟩ := ih (List.nodup_append.mp distinct).2.1 below
      exact ⟨rfl,others⟩

/-- `push_conds` in a plan with both tables puts the condition at the join where they meet. -/
theorem pushConds_meets (apart : cond.lhsCol.tabName ≠ cond.rhsCol.tabName) (plan : Plan)
    (distinct : plan.tables.Nodup) (lhs : cond.lhsCol.tabName ∈ plan.tables) (rhs : cond.rhsCol.tabName ∈ plan.tables) :
    ∃ (ctx : Plan.Context) (left right : Plan) (conds : List Condition), plan = ctx.fill (.join left right conds) ∧
      (cond.lhsCol.tabName ∈ left.tables ∧ cond.rhsCol.tabName ∈ right.tables ∧
          pushConds cond plan = (3,ctx.fill (.join left right (conds ++ [cond]))) ∨
        cond.rhsCol.tabName ∈ left.tables ∧ cond.lhsCol.tabName ∈ right.tables ∧
          pushConds cond plan = (3,ctx.fill (.join left right (conds ++ [cond.swap])))) := by
  induction plan with
  | scan plan =>
    simp only [Plan.tables,Plan.scans,List.map_cons,List.map_nil,List.mem_singleton] at lhs rhs
    exact absurd (lhs.trans rhs.symm) apart
  | join left right conds leftIh rightIh =>
    rw [tables_join] at distinct lhs rhs
    obtain ⟨leftDistinct,rightDistinct,disjoint⟩ := List.nodup_append.mp distinct
    have notTwice : ∀ {t}, t ∈ left.tables → t ∉ right.tables := fun inside other =>
      disjoint _ inside _ other rfl
    rcases List.mem_append.mp lhs with lhsLeft | lhsRight <;>
      rcases List.mem_append.mp rhs with rhsLeft | rhsRight
    · -- both on the left
      obtain ⟨ctx,l,r,own,rfl,placed⟩ := leftIh leftDistinct lhsLeft rhsLeft
      refine ⟨.inLeft ctx right conds,l,r,own,rfl,placed.imp ?_ ?_⟩ <;>
        exact fun ⟨first,second,run⟩ => ⟨first,second,by rw [Plan.Context.fill,pushConds,run]; rfl⟩
    · have leftPart := pushConds_missing left leftDistinct fun _ other => notTwice other rhsRight
      have rightPart := pushConds_missing right rightDistinct fun inside _ => notTwice lhsLeft inside
      rw [if_pos lhsLeft] at leftPart
      rw [if_neg (notTwice lhsLeft),if_pos rhsRight] at rightPart
      exact ⟨.here,left,right,conds,rfl,.inl ⟨lhsLeft,rhsRight,by rw [pushConds,leftPart,rightPart]; rfl⟩⟩
    · have leftPart := pushConds_missing left leftDistinct fun inside _ => notTwice inside lhsRight
      have rightPart := pushConds_missing right rightDistinct fun _ other => notTwice rhsLeft other
      rw [if_neg fun inside => notTwice inside lhsRight,if_pos rhsLeft] at leftPart
      rw [if_pos lhsRight] at rightPart
      exact ⟨.here,left,right,conds,rfl,.inr ⟨rhsLeft,lhsRight,by rw [pushConds,leftPart,rightPart]; rfl⟩⟩
    · -- both on the right
      have leftPart := pushConds_missing left leftDistinct fun inside _ => notTwice inside lhsRight
      rw [if_neg fun inside => notTwice inside lhsRight,if_neg fun inside => notTwice inside rhsRight] at leftPart
      obtain ⟨ctx,l,r,own,rfl,placed⟩ := rightIh rightDistinct lhsRight rhsRight
      refine ⟨.inRight left ctx conds,l,r,own,rfl,placed.imp ?_ ?_⟩ <;>
        exact fun ⟨first,second,run⟩ => ⟨first,second,by rw [Plan.Context.fill,pushConds,leftPart,run]; rfl⟩

section Fill

variable {plan changed : Plan} (ctx : Plan.Context)

theorem fill_scans (same : changed.scans = plan.scans) : (ctx.fill changed).scans = (ctx.fill plan).scans := by
  induction ctx with
  | here => exact same
  | inLeft ctx right conds ih => exact congrArg (· ++ right.scans) ih
  | inRight left ctx conds ih => exact congrArg (left.scans ++ ·) ih

theorem fill_fit (same : changed.scans = plan.scans) (fits : plan.JoinsFit → changed.JoinsFit)
    (whole : (ctx.fill plan).JoinsFit) : (ctx.fill changed).JoinsFit := by
  induction ctx with
  | here => exact fits whole
  | inLeft ctx right conds ih =>
    obtain ⟨here,left,right⟩ := whole
    refine ⟨?_,ih left,right⟩
    rw [Plan.tables,fill_scans ctx same]
    exact here
  | inRight left ctx conds ih =>
    obtain ⟨here,left,right⟩ := whole
    refine ⟨?_,left,ih right⟩
    rw [Plan.tables.eq_def (ctx.fill changed),fill_scans ctx same]
    exact here

theorem fill_joinConds (more : changed.joinConds.Perm (cond :: plan.joinConds)) :
    (ctx.fill changed).joinConds.Perm (cond :: (ctx.fill plan).joinConds) := by
  induction ctx with
  | here => exact more
  | inLeft ctx right conds ih => exact ((ih.append_right _).append_left conds).trans List.perm_middle
  | inRight left ctx conds ih =>
    exact ((ih.append_left _).append_left conds).trans ((List.perm_middle.append_left conds).trans List.perm_middle)

end Fill

theorem pushConds_both (apart : cond.lhsCol.tabName ≠ cond.rhsCol.tabName) (column : cond.isRhsVal = false)
    (plan : Plan) (distinct : plan.tables.Nodup) (fit : plan.JoinsFit) (lhs : cond.lhsCol.tabName ∈ plan.tables)
    (rhs : cond.rhsCol.tabName ∈ plan.tables) :
    ∃ plan' other, pushConds cond plan = (3,plan') ∧ plan'.scans = plan.scans ∧ plan'.JoinsFit ∧
      Mirrors cond other ∧ plan'.joinConds.Perm (other :: plan.joinConds) := by
  obtain ⟨ctx,left,right,conds,rfl,placed⟩ := pushConds_meets apart plan distinct lhs rhs
  have added (other : Condition) : (Plan.join left right (conds ++ [other])).joinConds.Perm
      (other :: (Plan.join left right conds).joinConds) := (List.perm_append_singleton other conds).append_right _
  have scans (other : Condition) : (Plan.join left right (conds ++ [other])).scans = (Plan.join left right conds).scans := rfl
  have fits (other : Condition) (here : other.isRhsVal = false ∧ other.lhsCol.tabName ∈ left.tables ∧
      other.rhsCol.tabName ∈ right.tables) (whole : (Plan.join left right conds).JoinsFit) :
      (Plan.join left right (conds ++ [other])).JoinsFit :=
    ⟨List.forall_mem_append.mpr ⟨whole.1,List.forall_mem_singleton.mpr here⟩,whole.2⟩
  rcases placed with ⟨onLeft,onRight,run⟩ | ⟨onLeft,onRight,run⟩
  · exact ⟨_,cond,run,fill_scans ctx (scans cond),fill_fit ctx (scans cond) (fits cond ⟨column,onLeft,onRight⟩) fit,.inl rfl,
      fill_joinConds ctx (added cond)⟩
  · exact ⟨_,cond.swap,run,fill_scans ctx (scans cond.swap),
      fill_fit ctx (scans cond.swap) (fits cond.swap ⟨column,onLeft,onRight⟩) fit,.inr rfl,fill_joinConds ctx (added cond.swap)⟩

/-- `push_conds` of a condition between two tables. With both in the tree, the condition is added at
the only join that has them on different sides, its left side on the left; otherwise nothing changes
and the answer names the side that was found. -/
theorem push_conds_placed (cond : Condition) (apart : cond.lhsCol.tabName ≠ cond.rhsCol.tabName) (plan : Plan)
    (distinct : plan.tables.Nodup) :
    (cond.lhsCol.tabName ∈ plan.tables → cond.rhsCol.tabName ∈ plan.tables →
      ∃ (ctx : Plan.Context) (left right : Plan) (conds : List Condition), plan = ctx.fill (.join left right conds) ∧
        (∀ (ctx' : Plan.Context) (left' right' : Plan) (conds' : List Condition), plan = ctx'.fill (.join left' right' conds') →
          Plan.Separates left' right' cond → ctx' = ctx ∧ left' = left ∧ right' = right ∧ conds' = conds) ∧
        (cond.lhsCol.tabName ∈ left.tables ∧ cond.rhsCol.tabName ∈ right.tables ∧
            pushConds cond plan = (3,ctx.fill (.join left right (conds ++ [cond]))) ∨
          cond.rhsCol.tabName ∈ left.tables ∧ cond.lhsCol.tabName ∈ right.tables ∧
            pushConds cond plan = (3,ctx.fill (.join left right (conds ++ [cond.swap]))))) ∧
    (¬(cond.lhsCol.tabName ∈ plan.tables ∧ cond.rhsCol.tabName ∈ plan.tables) →
      pushConds cond plan = (if cond.lhsCol.tabName ∈ plan.tables then 1
        else if cond.rhsCol.tabName ∈ plan.tables then 2 else 0,plan)) := by
  refine ⟨fun lhs rhs => ?_,fun missing => pushConds_missing plan distinct fun inside other => missing ⟨inside,other⟩⟩
  obtain ⟨ctx,left,right,conds,rfl,placed⟩ := pushConds_meets apart plan distinct lhs rhs
  have separates : Plan.Separates left right cond :=
    placed.imp (fun ⟨first,second,_⟩ => ⟨first,second⟩) fun ⟨first,second,_⟩ => ⟨first,second⟩
  refine ⟨ctx,left,right,conds,rfl,fun ctx' left' right' conds' same separates' => ?_,placed⟩
  exact separates_once (same ▸ distinct) same.symm separates' separates

end Push

section Scans

variable {db : DbMeta} {tables : List String} {conds : List Condition}

/-- The table is there and has no index. -/
def Unindexed (db : DbMeta) (tabName : String) : Prop := ∃ tab, db.getTable tabName = .ok tab ∧ tab.indexes = []

theorem getIndexCols_unindexed {tabName : String} (unindexed : Unindexed db tabName) (currConds : List Condition) :
    ∃ names, getIndexCols db tabName currConds = .ok (false,names) := by
  obtain ⟨tab,found,none⟩ := unindexed
  have missing : ∀ names, tab.isIndex names = false := fun names => by rw [TabMeta.isIndex,none]; rfl
  obtain ⟨names,run⟩ : ∃ names, getIndexCols db tabName currConds = .ok (tab.isIndex names,names) := by
    rw [getIndexCols,found]
    exact ⟨_,rfl⟩
  exact ⟨names,by rw [run,missing]⟩

theorem makeScans_ok (conds : List Condition) (unindexed : ∀ t ∈ tables, Unindexed db t) :
    ∃ scans rest, makeScans db tables conds = .ok (scans,rest) ∧ scans.map tabName = tables ∧
      conds.Perm (scans.flatMap ScanPlan.conds ++ rest) ∧
      (∀ scan ∈ scans, ∀ cond ∈ scan.conds, takes scan.tabName cond) ∧
      (∀ scan ∈ scans.tail, ∀ cond ∈ scan.conds, cond.lhsCol.tabName ≠ cond.rhsCol.tabName) ∧
      ∀ cond ∈ rest, ∀ t ∈ tables, takes t cond = false := by
  induction tables generalizing conds with
  | nil => exact ⟨[],conds,rfl,rfl,.refl _,nofun,nofun,fun _ _ => nofun⟩
  | cons t tables ih =>
    obtain ⟨here,others⟩ := List.forall_mem_cons.mp unindexed
    obtain ⟨names,index⟩ := getIndexCols_unindexed here (conds.filter (takes t))
    obtain ⟨scans,rest,run,tabs,perm,taken,_,left⟩ := ih (conds.filter fun c => !takes t c) others
    have whole : conds.Perm (conds.filter (takes t) ++ conds.filter fun c => !takes t c) :=
      (List.filter_append_perm _ _).symm
    have later : ∀ cond ∈ scans.flatMap ScanPlan.conds ++ rest, takes t cond = false := fun cond member => by
      simpa using (List.mem_filter.mp (perm.mem_iff.mpr member)).2
    refine ⟨⟨.seqScan,t,conds.filter (takes t),[]⟩ :: scans,rest,?_,by rw [List.map_cons,tabs],?_,?_,?_,?_⟩
    · simp only [makeScans,popConds,List.partition_eq_filter_filter]
      rw [index]
      show (makeScans db tables (conds.filter fun c => !takes t c) >>= fun r => pure (_ :: r.1,r.2)) = _
      rw [run]
      rfl
    · refine whole.trans ?_
      rw [List.flatMap_cons,List.append_assoc]
      exact perm.append_left _
    · exact List.forall_mem_cons.mpr ⟨fun cond member => (List.mem_filter.mp member).2,taken⟩
    · intro scan member cond inside same
      have passed := later cond (List.mem_append_left _ (List.mem_flatMap.mpr ⟨scan,member,inside⟩))
      simp [takes,same] at passed
    · exact fun cond member => List.forall_mem_cons.mpr
        ⟨later cond (List.mem_append_right _ member),left cond member⟩

end Scans

/-! The scans that are in the join so far. -/
section Joining

/-- The scans whose flag is set, and the others. -/
def used : List ScanPlan → List Bool → List ScanPlan
  | scan :: scans, flag :: flags => if flag then scan :: used scans flags else used scans flags
  | _, _ => []

def unused : List ScanPlan → List Bool → List ScanPlan
  | scan :: scans, flag :: flags => if flag then unused scans flags else scan :: unused scans flags
  | _, _ => []

variable {scans : List ScanPlan} {flags : List Bool}

theorem used_unused (size : flags.length = scans.length) : (used scans flags ++ unused scans flags).Perm scans := by
  induction scans generalizing flags with
  | nil => exact .refl _
  | cons scan scans ih =>
    obtain ⟨flag,flags,rfl⟩ := List.exists_cons_of_length_eq_add_one size
    have rest := ih (Nat.succ.inj size)
    cases flag with
    | true => exact .cons scan rest
    | false => exact List.perm_middle.trans (.cons scan rest)

theorem used_none (scans : List ScanPlan) (n : Nat) : used scans (List.replicate n false) = [] := by
  induction scans generalizing n with
  | nil => rfl
  | cons scan scans ih =>
    cases n with
    | zero => rfl
    | succ n => exact ih n

theorem popScan_new (distinct : (scans.map tabName).Nodup) (size : flags.length = scans.length)
    (there : table ∈ scans.map tabName) (fresh : table ∉ (used scans flags).map tabName) (names : List String) :
    ∃ scan flags', popScan scans table ⟨flags,names⟩ = (some (.scan scan),⟨flags',names ++ [table]⟩) ∧
      scan.tabName = table ∧ flags'.length = scans.length ∧
      (used scans flags').Perm (scan :: used scans flags) := by
  have position : ∃ i scan, scans.findIdx? (fun scan => scan.tabName == table) = some i ∧ scans[i]? = some scan ∧
      scan.tabName = table ∧ (used scans (flags.set i true)).Perm (scan :: used scans flags) := by
    induction scans generalizing flags with
    | nil => exact nomatch there
    | cons scan scans ih =>
      obtain ⟨flag,flags,rfl⟩ := List.exists_cons_of_length_eq_add_one size
      by_cases here : scan.tabName = table
      · have free : flag = false := by
          by_contra taken
          rw [Bool.not_eq_false] at taken
          exact fresh (by simp [used,taken,here])
        exact ⟨0,scan,by simp [List.findIdx?_cons,here],rfl,here,by simp [used,free]⟩
      · have later : table ∈ scans.map tabName :=
          (List.mem_cons.mp there).resolve_left fun same => here same.symm
        have freshLater : table ∉ (used scans flags).map tabName := by
          intro member
          cases flag with
          | true => exact fresh (List.mem_cons_of_mem _ member)
          | false => exact fresh member
        obtain ⟨i,found,index,at',named,perm⟩ :=
          ih (List.nodup_cons.mp distinct).2 (Nat.succ.inj size) later freshLater
        refine ⟨i + 1,found,by simp [List.findIdx?_cons,here,index],at',named,?_⟩
        cases flag with
        | true => exact (List.Perm.cons scan perm).trans (.swap _ _ _)
        | false => exact perm
  obtain ⟨i,scan,index,at',named,perm⟩ := position
  exact ⟨scan,flags.set i true,by rw [popScan,index]; simp only [at']; rfl,named,by simpa using size,perm⟩

theorem joinRest_spec (scans : List ScanPlan) (flags : List Bool) (plan : Plan) (fit : plan.JoinsFit) :
    (joinRest scans flags plan).scans.Perm (unused scans flags ++ plan.scans) ∧
      (joinRest scans flags plan).joinConds = plan.joinConds ∧ (joinRest scans flags plan).JoinsFit := by
  induction scans generalizing flags plan with
  | nil => exact ⟨.refl _,rfl,fit⟩
  | cons scan scans ih =>
    cases flags with
    | nil => exact ⟨.refl _,rfl,fit⟩
    | cons flag flags =>
      cases flag with
      | true => exact ih flags plan fit
      | false =>
        obtain ⟨perm,conds,fits⟩ := ih flags (.join (.scan scan) plan []) ⟨nofun,trivial,fit⟩
        exact ⟨perm.trans List.perm_middle,conds,fits⟩

end Joining

/-! The joins, one condition after the other. -/
section Join

variable {tables : List String} {scans : List ScanPlan}

/-- The join so far: which scans are in it, and where the conditions `done` stand. -/
structure Built (scans : List ScanPlan) (joining : Joining) (plan : Plan) (done : List Condition) : Prop where
  size : joining.scantbl.length = scans.length
  scanned : plan.scans.Perm (used scans joining.scantbl)
  names : ∀ t ∈ scans.map tabName, t ∈ joining.joinedTables ↔ t ∈ plan.tables
  fit : plan.JoinsFit
  once : Once done plan.joinConds

/-- A condition between two tables of the query. -/
structure Between (scans : List ScanPlan) (cond : Condition) : Prop where
  lhs : cond.lhsCol.tabName ∈ scans.map tabName
  rhs : cond.rhsCol.tabName ∈ scans.map tabName
  apart : cond.lhsCol.tabName ≠ cond.rhsCol.tabName
  column : cond.isRhsVal = false

variable {joining : Joining} {plan : Plan} {done : List Condition}

theorem Built.distinct (built : Built scans joining plan done) (distinct : (scans.map tabName).Nodup) :
    plan.tables.Nodup := by
  have whole := ((used_unused built.size).map tabName).nodup_iff.mpr distinct
  rw [List.map_append] at whole
  exact (built.scanned.map tabName).nodup_iff.mpr (List.nodup_append.mp whole).1

theorem Built.pop (built : Built scans joining plan done) (distinct : (scans.map tabName).Nodup)
    (there : table ∈ scans.map tabName) (fresh : table ∉ joining.joinedTables) :
    ∃ scan joining', popScan scans table joining = (some (.scan scan),joining') ∧ scan.tabName = table ∧
      joining'.joinedTables = joining.joinedTables ++ [table] ∧ joining'.scantbl.length = scans.length ∧
      (used scans joining'.scantbl).Perm (scan :: plan.scans) := by
  have new : table ∉ (used scans joining.scantbl).map tabName := fun member =>
    fresh ((built.names table there).mpr ((built.scanned.map _).mem_iff.mpr member))
  obtain ⟨scan,flags,run,named,size,perm⟩ := popScan_new distinct built.size there new joining.joinedTables
  exact ⟨scan,_,run,named,rfl,size,perm.trans (.cons scan built.scanned.symm)⟩

theorem Built.one (built : Built scans joining plan done) {scan : ScanPlan} {joining' : Joining}
    (names : joining'.joinedTables = joining.joinedTables ++ [scan.tabName])
    (size : joining'.scantbl.length = scans.length) (perm : (used scans joining'.scantbl).Perm (scan :: plan.scans))
    {other : Condition} (mirrors : Mirrors cond other) (column : other.isRhsVal = false)
    (lhs : other.lhsCol.tabName = scan.tabName) (rhs : other.rhsCol.tabName ∈ plan.tables) :
    Built scans joining' (.join (.scan scan) plan [other]) (done ++ [cond]) where
  size := size
  scanned := perm.symm
  names := fun t there => by
    rw [names,tables_join]
    simp [built.names t there,Plan.tables,Plan.scans,or_comm]
  fit := ⟨List.forall_mem_singleton.mpr ⟨column,by simp [Plan.tables,Plan.scans,lhs],rhs⟩,trivial,built.fit⟩
  once := (built.once.append (.single mirrors)).perm (List.perm_append_singleton _ _)

theorem joinNext_built (distinct : (scans.map tabName).Nodup) (built : Built scans joining plan done)
    (between : Between scans cond) :
    Built scans (joinNext scans cond plan joining).2 (joinNext scans cond plan joining).1 (done ++ [cond]) := by
  have inPlan {t : String} (there : t ∈ scans.map tabName) (joined : t ∈ joining.joinedTables) :
      t ∈ plan.tables := (built.names t there).mp joined
  by_cases lhsJoined : cond.lhsCol.tabName ∈ joining.joinedTables <;>
    by_cases rhsJoined : cond.rhsCol.tabName ∈ joining.joinedTables
  · obtain ⟨plan',other,run,sameScans,fit,mirrors,perm⟩ := pushConds_both between.apart between.column plan
      (built.distinct distinct) built.fit (inPlan between.lhs lhsJoined) (inPlan between.rhs rhsJoined)
    simp only [joinNext,if_pos lhsJoined,if_pos rhsJoined,run]
    refine ⟨built.size,sameScans ▸ built.scanned,fun t there => ?_,fit,?_⟩
    · rw [built.names t there,Plan.tables,Plan.tables,sameScans]
    · exact (built.once.append (.single mirrors)).perm ((List.perm_append_singleton _ _).trans perm.symm)
  · obtain ⟨scan,joining',run,named,names,size,perm⟩ := built.pop distinct between.rhs rhsJoined
    simp only [joinNext,if_pos lhsJoined,if_neg rhsJoined,run]
    exact built.one (named ▸ names) size perm (.inr rfl) between.column named.symm (inPlan between.lhs lhsJoined)
  · obtain ⟨scan,joining',run,named,names,size,perm⟩ := built.pop distinct between.lhs lhsJoined
    have still : cond.rhsCol.tabName ∈ joining'.joinedTables := names ▸ List.mem_append_left _ rhsJoined
    simp only [joinNext,if_neg lhsJoined,run,if_pos still]
    exact built.one (named ▸ names) size perm (.inl rfl) between.column named.symm (inPlan between.rhs rhsJoined)
  · obtain ⟨scan,joining',run,named,names,size,perm⟩ := built.pop distinct between.lhs lhsJoined
    -- the left table alone in front of the join, for the second `pop_scan`
    have half : Built scans joining' (.join (.scan scan) plan []) done := {
      size := size
      scanned := perm.symm
      names := fun t there => by
        rw [names,tables_join,← named]
        simp [built.names t there,Plan.tables,Plan.scans,or_comm]
      fit := ⟨nofun,trivial,built.fit⟩
      once := built.once }
    have new : cond.rhsCol.tabName ∉ joining'.joinedTables := by
      rw [names]
      simp [rhsJoined,Ne.symm between.apart]
    obtain ⟨right,joining'',run',named',names',size',perm'⟩ := half.pop distinct between.rhs new
    simp only [joinNext,if_neg lhsJoined,run,if_neg new,run']
    refine ⟨size',(List.Perm.swap _ _ _).trans perm'.symm,fun t there => ?_,
      ⟨nofun,⟨?_,trivial,trivial⟩,built.fit⟩,?_⟩
    · have pair : (Plan.join (.join (.scan scan) (.scan right) [cond]) plan []).tables =
          scan.tabName :: right.tabName :: plan.tables := rfl
      rw [names',names,pair,named,named']
      simp [built.names t there]
      tauto
    · exact List.forall_mem_singleton.mpr ⟨between.column,by simp [Plan.tables,Plan.scans,named],
        by simp [Plan.tables,Plan.scans,named']⟩
    · exact (built.once.append (.single (.inl rfl))).perm (List.perm_append_singleton _ _)

theorem joinAll_built (distinct : (scans.map tabName).Nodup) {conds : List Condition}
    (between : ∀ cond ∈ conds, Between scans cond) (built : Built scans joining plan done) :
    Built scans (joinAll scans conds plan joining).2 (joinAll scans conds plan joining).1 (done ++ conds) := by
  induction conds generalizing plan joining done with
  | nil => simpa [joinAll] using built
  | cons cond conds ih =>
    obtain ⟨first,rest⟩ := List.forall_mem_cons.mp between
    have onward := ih rest (joinNext_built distinct built first)
    simpa [joinAll] using onward

/-- The whole join of a query: every scan once, and every condition between two tables where
its tables meet. -/
theorem Built.rest (built : Built scans joining plan done) :
    (joinRest scans joining.scantbl plan).scans.Perm scans ∧
      Once done (joinRest scans joining.scantbl plan).joinConds ∧ (joinRest scans joining.scantbl plan).JoinsFit := by
  obtain ⟨perm,conds,fit⟩ := joinRest_spec scans joining.scantbl plan built.fit
  refine ⟨perm.trans ?_,conds ▸ built.once,fit⟩
  exact (built.scanned.append_left _).trans (List.perm_append_comm.trans (used_unused built.size))

theorem first_built (distinct : (scans.map tabName).Nodup) (named : "" ∉ scans.map tabName)
    (between : Between scans cond) :
    ∃ left joining right joining', popScan scans cond.lhsCol.tabName
        ⟨List.replicate scans.length false,List.replicate scans.length ""⟩ = (some left,joining) ∧
      popScan scans cond.rhsCol.tabName joining = (some right,joining') ∧
      Built scans joining' (.join left right [cond]) [cond] := by
  have none := used_none scans scans.length
  have full : (List.replicate scans.length false).length = scans.length := List.length_replicate
  obtain ⟨left,flags,run,leftName,size,perm⟩ := popScan_new distinct full between.lhs
    (by simp [none]) (List.replicate scans.length "")
  rw [none] at perm
  obtain ⟨right,flags',run',rightName,size',perm'⟩ := popScan_new distinct size between.rhs
    (by rw [(perm.map _).mem_iff]; simpa [leftName] using Ne.symm between.apart) _
  refine ⟨_,_,_,_,run,run',size',?_,fun t there => ?_,⟨?_,trivial,trivial⟩,.single (.inl rfl)⟩
  · exact (List.Perm.swap _ _ _).trans ((perm'.trans (.cons right perm)).symm)
  · have pair : (Plan.join (.scan left) (.scan right) [cond]).tables = [left.tabName,right.tabName] := rfl
    have filled : t ≠ "" := ne_of_mem_of_not_mem there named
    rw [pair,leftName,rightName]
    simp [List.mem_replicate,filled]
  · exact List.forall_mem_singleton.mpr ⟨between.column,by simp [Plan.tables,Plan.scans,leftName],
      by simp [Plan.tables,Plan.scans,rightName]⟩

theorem start_built (scan : ScanPlan) (rest : List ScanPlan) :
    Built (scan :: rest) ⟨(List.replicate (rest.length + 1) false).set 0 true,[scan.tabName]⟩ (.scan scan) [] where
  size := by simp
  scanned := by
    show [scan].Perm (scan :: used rest (List.replicate rest.length false))
    rw [used_none]
  names := fun t _ => Iff.rfl
  fit := trivial
  once := .nil

end Join

section Whole

variable {db : DbMeta} {tables : List String} {conds : List Condition}

/-- The plan of a query over at least two tables, whatever its conditions are. -/
theorem makeOneRel_built (two : 2 ≤ tables.length) (distinct : tables.Nodup) (named : "" ∉ tables)
    {scans : List ScanPlan} {rest : List Condition} (made : makeScans db tables conds = .ok (scans,rest))
    (tabs : scans.map tabName = tables) (between : ∀ cond ∈ rest, Between scans cond) :
    ∃ plan, makeOneRel db tables conds = .ok plan ∧ plan.scans.Perm scans ∧ Once rest plan.joinConds ∧
      plan.JoinsFit := by
  have size : scans.length = tables.length := by rw [← tabs,List.length_map]
  rw [← tabs] at distinct named
  obtain ⟨first,second,more,rfl⟩ : ∃ first second more, scans = first :: second :: more := by
    rcases scans with _ | ⟨first,_ | ⟨second,more⟩⟩
    · exact absurd (size ▸ two) (by simp)
    · exact absurd (size ▸ two) (by simp)
    · exact ⟨first,second,more,rfl⟩
  rw [makeOneRel,made]
  cases rest with
  | nil =>
    have built := start_built first (second :: more)
    rw [List.length_cons] at size
    refine ⟨_,?_,built.rest⟩
    rw [← size]
    rfl
  | cons cond conds =>
    obtain ⟨here,others⟩ := List.forall_mem_cons.mp between
    obtain ⟨left,joining,right,joining',popLeft,popRight,start⟩ := first_built distinct named here
    have built := joinAll_built distinct others start
    refine ⟨_,?_,built.rest⟩
    rw [size] at popLeft
    simp only [bind,Except.bind,popLeft,popRight]
    rfl

theorem between_of_left {scans : List ScanPlan} (tabs : scans.map tabName = tables) (analyzed : Analyzed tables cond)
    (left : ∀ t ∈ tables, takes t cond = false) : Between scans cond := by
  have passed := left _ analyzed.lhs
  simp only [takes,BEq.rfl,Bool.true_and,Bool.or_eq_false_iff,beq_eq_false_iff_ne] at passed
  exact ⟨tabs ▸ analyzed.lhs,tabs ▸ analyzed.rhs passed.1,passed.2,passed.1⟩

/-- The conditions are planned as they should be if and only if those between two columns of one
table are all on the first table, whose scan takes them. -/
theorem planned_once_iff (two : 2 ≤ tables.length) (distinct : tables.Nodup) (named : "" ∉ tables)
    (unindexed : ∀ t ∈ tables, Unindexed db t) (analyzed : ∀ cond ∈ conds, Analyzed tables cond) :
    (∃ plan, makeOneRel db tables conds = .ok plan ∧ PlannedOnce tables conds plan) ↔
      ∀ cond ∈ conds, cond.isRhsVal = false → cond.lhsCol.tabName = cond.rhsCol.tabName →
        tables.head? = some cond.lhsCol.tabName := by
  obtain ⟨scans,rest,made,tabs,perm,taken,later,left⟩ := makeScans_ok conds unindexed
  have fromQuery {cond : Condition} (member : cond ∈ scans.flatMap ScanPlan.conds ++ rest) : cond ∈ conds :=
    perm.mem_iff.mpr member
  obtain ⟨plan,run,scanned,once,fit⟩ := makeOneRel_built two distinct named made tabs fun cond member =>
    between_of_left tabs (analyzed cond (fromQuery (List.mem_append_right _ member))) (left cond member)
  -- a condition on one table's columns is at the scan of the first table
  have first {scan : ScanPlan} (member : scan ∈ scans) {cond : Condition} (inside : cond ∈ scan.conds)
      (same : cond.lhsCol.tabName = cond.rhsCol.tabName) : tables.head? = some scan.tabName := by
    rw [← tabs]
    cases scans with
    | nil => exact nomatch member
    | cons head tail =>
      rcases List.mem_cons.mp member with rfl | inTail
      · rfl
      · exact absurd same (later scan inTail cond inside)
  constructor
  · rintro ⟨plan',run',planned⟩ cond member column same
    obtain rfl : plan = plan' := Except.ok.inj (run.symm.trans run')
    rcases List.mem_append.mp (perm.mem_iff.mp member) with atScan | atJoin
    · obtain ⟨scan,among,inside⟩ := List.mem_flatMap.mp atScan
      have onTable := planned.atScan scan (scanned.mem_iff.mpr among) cond inside
      rw [first among inside same,onTable.1]
    · have apart := (between_of_left tabs (analyzed cond member) (left cond atJoin)).apart
      exact absurd same apart
  · intro onFirst
    refine ⟨plan,run,tabs ▸ scanned.map _,?_,fun scan member cond inside => ?_,fit⟩
    · refine .of_perm perm (((Once.refl _).append once).perm ?_)
      exact (scanned.symm.flatMap_right _).append_right _
    · have among := scanned.mem_iff.mp member
      have asked := fromQuery (List.mem_append_left _ (List.mem_flatMap.mpr ⟨scan,among,inside⟩))
      have takesIt := taken scan among cond inside
      simp only [takes,Bool.or_eq_true,Bool.and_eq_true,beq_iff_eq] at takesIt
      rcases takesIt with ⟨here,value⟩ | same
      · exact ⟨here.symm,.inl value⟩
      · cases value : cond.isRhsVal with
        | true =>
          have empty := (analyzed cond asked).value value
          exact absurd (same.trans empty ▸ (analyzed cond asked).lhs) named
        | false =>
          have here := (first among inside same).symm.trans (onFirst cond asked value same)
          have named := Option.some.inj here
          exact ⟨named.symm,.inr (same.symm.trans named.symm)⟩

def twoTables : DbMeta :=
  let col (tab name : String) (offset : Int) : ColMeta := ⟨tab,name,.int,4,offset,false⟩
  ⟨"db",⟨[("a",⟨"a",[col "a" "x" 0,col "a" "y" 4],[]⟩),("b",⟨"b",[col "b" "x" 0,col "b" "y" 4],[]⟩)],by decide +kernel⟩⟩

def compareCols (lhsTab lhs : String) (op : CompOp) (rhsTab rhs : String) : Condition :=
  ⟨⟨lhsTab,lhs⟩,op,false,⟨rhsTab,rhs⟩,.int 0⟩

/-- The scans of a and b under a join, and that of c beside it. -/
def threeScans : Plan :=
  .join (.join (.scan ⟨.seqScan,"a",[],[]⟩) (.scan ⟨.seqScan,"b",[],[]⟩) []) (.scan ⟨.seqScan,"c",[],[]⟩) []

/-- `c.x < b.y` goes to the upper join, and `a.x < d.y` nowhere. -/
theorem threeScans_pushed : (pushConds (compareCols "c" "x" .lt "b" "y") threeScans).1 = 3 ∧
    pushConds (compareCols "a" "x" .lt "d" "y") threeScans = (1,threeScans) := by
  obtain ⟨_,_,_,_,_,_,placed⟩ := (push_conds_placed (compareCols "c" "x" .lt "b" "y") (by decide) threeScans (by decide)).1
    (by decide) (by decide)
  refine ⟨?_,(push_conds_placed (compareCols "a" "x" .lt "d" "y") (by decide) threeScans (by decide)).2 (by decide)⟩
  rcases placed with ⟨_,_,run⟩ | ⟨_,_,run⟩ <;> rw [run]

/-- `select * from a, b where b.x = b.y`: the condition on table b is given to the scan of a. -/
theorem misplaced_condition :
    let cond := compareCols "b" "x" .eq "b" "y"
    (∀ t ∈ ["a","b"], Unindexed twoTables t) ∧ Analyzed ["a","b"] cond ∧
      makeOneRel twoTables ["a","b"] [cond] =
        .ok (.join (.scan ⟨.seqScan,"b",[],[]⟩) (.scan ⟨.seqScan,"a",[cond],[]⟩) []) ∧
      ∀ plan, makeOneRel twoTables ["a","b"] [cond] = .ok plan → ¬PlannedOnce ["a","b"] [cond] plan := by
  intro cond
  have plan : makeOneRel twoTables ["a","b"] [cond] =
      .ok (.join (.scan ⟨.seqScan,"b",[],[]⟩) (.scan ⟨.seqScan,"a",[cond],[]⟩) []) := by decide +kernel
  refine ⟨?_,⟨by decide,by decide,nofun⟩,plan,fun other run planned => ?_⟩
  · exact List.forall_mem_cons.mpr ⟨⟨_,rfl,rfl⟩,List.forall_mem_singleton.mpr ⟨_,rfl,rfl⟩⟩
  · obtain rfl := Except.ok.inj (run.symm.trans plan)
    have onTable := planned.atScan ⟨.seqScan,"a",[cond],[]⟩ (by simp [Plan.scans]) cond (by simp)
    exact absurd onTable.1 (by decide)

/-- `select * from a, b where a.x = a.y and a.x < b.y`. -/
theorem firstTable_planned :
    let conds := [compareCols "a" "x" .eq "a" "y",compareCols "a" "x" .lt "b" "y"]
    ∃ plan, makeOneRel twoTables ["a","b"] conds = .ok plan ∧ PlannedOnce ["a","b"] conds plan := by
  intro conds
  have unindexed : ∀ t ∈ ["a","b"], Unindexed twoTables t :=
    List.forall_mem_cons.mpr ⟨⟨_,rfl,rfl⟩,List.forall_mem_singleton.mpr ⟨_,rfl,rfl⟩⟩
  have analyzed : ∀ cond ∈ conds, Analyzed ["a","b"] cond :=
    List.forall_mem_cons.mpr ⟨⟨by decide,by decide,nofun⟩,
      List.forall_mem_singleton.mpr ⟨by decide,by decide,nofun⟩⟩
  exact (planned_once_iff (by decide) (by decide) (by decide) unindexed analyzed).mpr (by decide +kernel)

end Whole

end Planner

end Rucbase
