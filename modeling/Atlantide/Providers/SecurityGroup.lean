import Mathlib.Logic.Function.Basic
import Atlantide.Providers.SgRules

/-! # Syncing the rules of a security group

The live rules of a group are made the declared ones by three calls in each direction. EC2 adds what
is authorized and refuses a duplicate, removes what is revoked, and changes descriptions. The sync
settles on the declared rules, once and for all, unless a prefix list is live or a rule that is to be
added is declared twice. -/

namespace Atlantide.Networking

/-! ## EC2 -/

/-- The live units of one direction, each with its description. -/
abbrev Live := Permit → Option String

inductive Direction
  | ingress
  | egress
  deriving DecidableEq

/-- `authorize_security_group_*`, `revoke_security_group_*` and
`update_security_group_rule_descriptions_*` -/
inductive Action
  | authorize
  | revoke
  | redescribe
  deriving DecidableEq

/-- The description that a request gives. -/
def given (request : List Grant) (permit : Permit) : Option String :=
  (request.find? fun grant => grant.permit = permit).map Grant.label

namespace Live

variable (live : Live) (request : List Grant)

/-- A unit that is live or named twice is a duplicate. -/
def authorize : Option Live :=
  if (request.map Grant.permit).Nodup ∧ ∀ grant ∈ request, live grant.permit = none then
    some fun permit => (given request permit).or (live permit)
  else none

def revoke : Live := fun permit =>
  if permit ∈ request.map Grant.permit then none else live permit

def redescribe : Live := fun permit =>
  (live permit).map fun label => (given request permit).getD label

def call (action : Action) (permissions : List Permission) : Option Live :=
  match action with
  | .authorize => live.authorize (grants permissions)
  | .revoke => some (live.revoke (grants permissions))
  | .redescribe => some (live.redescribe (grants permissions))

/-- The live units as EC2 may describe them, grouped and ordered in any way. -/
structure Reports (permissions : List Permission) : Prop where
  sourced : ∀ permission ∈ permissions, permission.grants ≠ []
  units : ∀ permit label, live permit = some label ↔
    ∃ grant ∈ grants permissions, grant.permit = permit ∧ grant.label = label

end Live

structure Call where
  direction : Direction
  action : Action
  permissions : List Permission
  deriving DecidableEq

abbrev Account := Direction → Live

namespace Account

def call (account : Account) (call : Call) : Option Account :=
  ((account call.direction).call call.action call.permissions).map
    (Function.update account call.direction)

/-- The calls one after another, until one is refused. -/
def run (account : Account) (calls : List Call) : Option Account := calls.foldlM Account.call account

end Account

/-! ## The sync -/

structure SecurityGroup where
  ingress : List SgRule
  egress : List SgRule

def SecurityGroup.rules (group : SecurityGroup) : Direction → List SgRule
  | .ingress => group.ingress
  | .egress => group.egress

/-- What `describe_security_groups` returns of a group. -/
structure Described where
  ipPermissions : List Permission
  ipPermissionsEgress : List Permission

def Described.permissions (described : Described) : Direction → List Permission
  | .ingress => described.ipPermissions
  | .egress => described.ipPermissionsEgress

/-- The declared units that are not live. -/
def added (declared : List SgRule) (permissions : List Permission) : List Permission :=
  (atomicUnits (declared.map ruleToAws)).filter fun unit => !hasRule (atomicUnits permissions) unit

/-- The live units that are not declared. -/
def stale (declared : List SgRule) (permissions : List Permission) : List Permission :=
  (atomicUnits permissions).filter fun unit => !hasRule (atomicUnits (declared.map ruleToAws)) unit

def relabelled (declared : List SgRule) (permissions : List Permission) : List Permission :=
  redescribed (atomicUnits (declared.map ruleToAws)) (atomicUnits permissions)

/-- A call, unless it has nothing to name. -/
def callWith (direction : Direction) (action : Action) (permissions : List Permission) :
    List Call :=
  if permissions = [] then [] else [⟨direction, action, permissions⟩]

def directionCalls (direction : Direction) (declared : List SgRule)
    (permissions : List Permission) : List Call :=
  callWith direction .authorize (added declared permissions) ++
    callWith direction .revoke (stale declared permissions) ++
    callWith direction .redescribe (relabelled declared permissions)

/-- The calls of `_sync_rules`, all from one description. -/
def syncRules (group : SecurityGroup) (described : Described) : List Call :=
  [Direction.ingress, Direction.egress].flatMap fun direction =>
    directionCalls direction (group.rules direction) (described.permissions direction)

/-- The rules of one direction that `read` reports. -/
def read (group : SecurityGroup) (described : Described) (direction : Direction) :
    List RuleFields :=
  reportedRules (rulesFromAws (described.permissions direction)) (group.rules direction)

/-! ## One direction -/

/-- No two declared units differ in their description only. -/
def OneDescription (declared : List SgRule) : Prop :=
  ∀ unit ∈ declaredUnits declared, ∀ other ∈ declaredUnits declared,
    unit.1 = other.1 → unit.2 = other.2

/-- No unit that is not live is declared twice. -/
def Once (live : Live) (declared : List SgRule) : Prop :=
  (((declaredUnits declared).map Prod.fst).filter fun permit => live permit = none).Nodup

instance (live : Live) (declared : List SgRule) : Decidable (Once live declared) :=
  inferInstanceAs (Decidable (List.Nodup _))

/-- What one direction has after the calls: the declared units, and the prefix lists as they
were. -/
def settled (live : Live) (declared : List SgRule) : Live := fun permit =>
  (given (declaredGrants declared) permit).or
    (if permit.kind = .prefixList then live permit else none)

section

variable {live : Live} {permissions : List Permission} {declared : List SgRule} {permit : Permit}
variable {grant : Grant} {request : List Grant}

theorem given_eq_some
    (hone : ∀ grant ∈ request, ∀ other ∈ request, grant.permit = other.permit →
      grant.label = other.label)
    (hmem : grant ∈ request) : given request grant.permit = some grant.label := by
  have hsome : (request.find? fun other => other.permit = grant.permit).isSome := by
    rw [List.find?_isSome]
    exact ⟨grant, hmem, decide_eq_true rfl⟩
  obtain ⟨found, hfound⟩ := Option.isSome_iff_exists.mp hsome
  have hpermit : found.permit = grant.permit := by simpa using List.find?_some hfound
  rw [given, hfound, Option.map_some,
    hone found (List.mem_of_find?_eq_some hfound) grant hmem hpermit]

theorem given_eq_none (hnone : ∀ grant ∈ request, grant.permit ≠ permit) :
    given request permit = none := by
  rw [given, Option.map_eq_none_iff, List.find?_eq_none]
  intro grant hmem
  rw [decide_eq_true_eq]
  exact hnone grant hmem

/-- What a part of a request gives, chosen by units and descriptions. -/
theorem given_filter
    (hone : ∀ grant ∈ request, ∀ other ∈ request, grant.permit = other.permit →
      grant.label = other.label)
    (hmem : grant ∈ request) (test : Permit → String → Prop) [∀ permit, DecidablePred (test permit)] :
    given (request.filter fun grant => test grant.permit grant.label) grant.permit =
      if test grant.permit grant.label then some grant.label else none := by
  split
  · rename_i htest
    refine given_eq_some (fun first hfirst second hsecond => hone first
      (List.mem_of_mem_filter hfirst) second (List.mem_of_mem_filter hsecond)) ?_
    exact List.mem_filter.mpr ⟨hmem, decide_eq_true htest⟩
  · rename_i htest
    refine given_eq_none fun other hother hpermit => htest ?_
    obtain ⟨hother, hsame⟩ := List.mem_filter.mp hother
    rw [← hpermit, ← hone other hother grant hmem hpermit]
    exact of_decide_eq_true hsame

theorem mem_declaredUnits {unit : Permit × String} :
    unit ∈ declaredUnits declared ↔
      ∃ grant ∈ declaredGrants declared, grant.permit = unit.1 ∧ grant.label = unit.2 := by
  rw [← declaredGrants_map, List.mem_map]
  simp only [Prod.ext_iff]

theorem OneDescription.grants (hone : OneDescription declared) :
    ∀ grant ∈ declaredGrants declared, ∀ other ∈ declaredGrants declared,
      grant.permit = other.permit → grant.label = other.label :=
  fun grant hmem other hmem' => hone (grant.permit, grant.label)
    (mem_declaredUnits.mpr ⟨grant, hmem, rfl, rfl⟩) (other.permit, other.label)
    (mem_declaredUnits.mpr ⟨other, hmem', rfl, rfl⟩)

theorem once_iff : Once live declared ↔
    (((declaredGrants declared).filter fun grant => live grant.permit = none).map
      Grant.permit).Nodup := by
  have hpermits : (declaredUnits declared).map Prod.fst =
      (declaredGrants declared).map Grant.permit := by
    rw [← declaredGrants_map, List.map_map]
    rfl
  rw [Once, hpermits, List.filter_map]
  rfl

theorem Live.Reports.known (hreports : live.Reports permissions)
    (hkind : permit.kind ≠ .prefixList) :
    (∃ found ∈ known permissions, found.permit = permit) ↔ live permit ≠ none := by
  constructor
  · rintro ⟨found, hfound, rfl⟩
    have hlive := (hreports.units found.permit found.label).mpr
      ⟨found, (mem_known.mp hfound).1, rfl, rfl⟩
    rw [hlive]
    nofun
  · intro hsome
    obtain ⟨label, hlabel⟩ := Option.ne_none_iff_exists'.mp hsome
    obtain ⟨found, hfound, rfl, -⟩ := (hreports.units permit label).mp hlabel
    exact ⟨found, mem_known.mpr ⟨hfound, hkind⟩, rfl⟩

theorem added_eq (hreports : live.Reports permissions) :
    added declared permissions =
      ((declaredGrants declared).filter fun grant => live grant.permit = none).map Grant.unit := by
  rw [added, atomicUnits_declared, List.filter_map]
  congr 1
  refine List.filter_congr fun grant hmem => ?_
  have hkind := (mem_known.mp hmem).2
  rw [Function.comp_apply, Bool.eq_iff_iff, Bool.not_eq_true', ← Bool.not_eq_true,
    hasRule_unit hkind, hreports.known hkind, not_not, decide_eq_true_eq]

theorem relabelled_eq (hreports : live.Reports permissions) :
    relabelled declared permissions =
      ((declaredGrants declared).filter fun grant =>
        live grant.permit ≠ none ∧ live grant.permit ≠ some grant.label).map Grant.unit := by
  rw [relabelled, redescribed, atomicUnits_declared, List.filter_map]
  congr 1
  refine List.filter_congr fun grant hmem => ?_
  have hkind := (mem_known.mp hmem).2
  rw [Function.comp_apply, Bool.eq_iff_iff, List.any_eq_true, decide_eq_true_eq]
  simp only [Bool.and_eq_true, decide_eq_true_eq]
  constructor
  · rintro ⟨unit, hunit, hsame, hother⟩
    rcases mem_atomicUnits.mp hunit with ⟨found, hfound, rfl⟩ | ⟨permission, -, -, rfl⟩
    · have hknown := mem_known.mp hfound
      have hpermit := (identity_unit hknown.2 hkind).mp hsame
      rw [description_unit hknown.2, description_unit hkind] at hother
      have hlive := (hreports.units grant.permit found.label).mpr ⟨found, hknown.1, hpermit, rfl⟩
      rw [hlive]
      exact ⟨nofun, fun heq => hother (Option.some.inj heq)⟩
    · exact (identity_unit_ne_base hkind hsame.symm).elim
  · rintro ⟨hsome, hother⟩
    obtain ⟨label, hlabel⟩ := Option.ne_none_iff_exists'.mp hsome
    obtain ⟨found, hfound, hpermit, rfl⟩ := (hreports.units grant.permit label).mp hlabel
    have hfoundKind : found.permit.kind ≠ .prefixList := hpermit ▸ hkind
    refine ⟨found.unit, mem_atomicUnits.mpr (.inl ⟨found, mem_known.mpr ⟨hfound, hfoundKind⟩, rfl⟩),
      (identity_unit hfoundKind hkind).mpr hpermit, ?_⟩
    rw [description_unit hfoundKind, description_unit hkind]
    exact fun heq => hother (hlabel.trans (congrArg some heq))

theorem mem_stale (hreports : live.Reports permissions) :
    permit ∈ (grants (stale declared permissions)).map Grant.permit ↔
      permit.kind ≠ .prefixList ∧ live permit ≠ none ∧
        ∀ grant ∈ declaredGrants declared, grant.permit ≠ permit := by
  have hdeclared (found : Grant) (hkind : found.permit.kind ≠ .prefixList) :
      hasRule (atomicUnits (declared.map ruleToAws)) found.unit = false ↔
        ∀ grant ∈ declaredGrants declared, grant.permit ≠ found.permit := by
    rw [← Bool.not_eq_true, hasRule_unit hkind]
    exact ⟨fun hnone grant hmem heq => hnone ⟨grant, hmem, heq⟩,
      fun hall ⟨grant, hmem, heq⟩ => hall grant hmem heq⟩
  rw [List.mem_map]
  constructor
  · rintro ⟨found, hfound, rfl⟩
    obtain ⟨unit, hunit, hgrant⟩ := List.mem_flatMap.mp hfound
    obtain ⟨hunit, hstale⟩ := List.mem_filter.mp hunit
    rcases mem_atomicUnits.mp hunit with ⟨other, hother, rfl⟩ | ⟨permission, -, -, rfl⟩
    · rw [Grant.grants_unit, List.mem_singleton] at hgrant
      subst hgrant
      have hkind := (mem_known.mp hother).2
      exact ⟨hkind, (hreports.known hkind).mp ⟨_, hother, rfl⟩,
        (hdeclared _ hkind).mp (by simpa using hstale)⟩
    · cases hgrant
  · rintro ⟨hkind, hlive, hnone⟩
    obtain ⟨found, hfound, rfl⟩ := (hreports.known hkind).mpr hlive
    refine ⟨found, List.mem_flatMap.mpr ⟨found.unit, List.mem_filter.mpr ⟨?_, ?_⟩, ?_⟩, rfl⟩
    · exact mem_atomicUnits.mpr (.inl ⟨found, hfound, rfl⟩)
    · rw [(hdeclared found hkind).mpr hnone, Bool.not_false]
    · rw [Grant.grants_unit]
      exact List.mem_singleton_self found

theorem call_added (hreports : live.Reports permissions) :
    live.call .authorize (added declared permissions) =
      if Once live declared then
        some fun permit => (given ((declaredGrants declared).filter fun grant =>
          live grant.permit = none) permit).or (live permit)
      else none := by
  rw [Live.call, added_eq hreports, grants_map_unit, Live.authorize]
  refine if_congr ((and_iff_left fun grant hmem => ?_).trans once_iff.symm) rfl rfl
  exact of_decide_eq_true (List.mem_filter.mp hmem).2

/-- **What the three calls leave.** -/
theorem calls_settle (hreports : live.Reports permissions) (hone : OneDescription declared) :
    ((Live.revoke (fun permit => (given ((declaredGrants declared).filter fun grant =>
        live grant.permit = none) permit).or (live permit))
      (grants (stale declared permissions))).redescribe
        (grants (relabelled declared permissions))) = settled live declared := by
  funext permit
  rw [relabelled_eq hreports, grants_map_unit, Live.redescribe, Live.revoke,
    if_congr (mem_stale hreports) rfl rfl, settled]
  by_cases hdeclared : ∃ grant ∈ declaredGrants declared, grant.permit = permit
  · obtain ⟨grant, hmem, rfl⟩ := hdeclared
    rw [if_neg fun hstale => hstale.2.2 grant hmem rfl, given_eq_some hone.grants hmem,
      given_filter hone.grants hmem fun permit _ => live permit = none,
      given_filter hone.grants hmem fun permit label => live permit ≠ none ∧
        live permit ≠ some label, Option.some_or]
    by_cases hlive : live grant.permit = none
    · simp [hlive]
    · obtain ⟨label, hlabel⟩ := Option.ne_none_iff_exists'.mp hlive
      by_cases hsame : label = grant.label
      · simp [hlabel, hsame]
      · simp [hlabel, hsame]
  · have hnone : ∀ grant ∈ declaredGrants declared, grant.permit ≠ permit :=
      fun grant hmem heq => hdeclared ⟨grant, hmem, heq⟩
    have hsub (test : Grant → Bool) : given ((declaredGrants declared).filter test) permit = none :=
      given_eq_none fun grant hmem => hnone grant (List.mem_of_mem_filter hmem)
    rw [given_eq_none hnone, hsub, hsub, Option.none_or, Option.none_or]
    by_cases hkind : permit.kind = .prefixList
    · rw [if_neg fun hstale => hstale.1 hkind, if_pos hkind]
      exact Option.map_id'
    · rw [if_neg hkind]
      cases hlive : live permit with
      | none =>
        split <;> rfl
      | some label =>
        rw [if_pos ⟨hkind, nofun, hnone⟩]
        rfl

theorem kind_of_mem_declaredUnits {unit : Permit × String} (hmem : unit ∈ declaredUnits declared) :
    unit.1.kind ≠ .prefixList := by
  obtain ⟨grant, hgrant, hpermit, -⟩ := mem_declaredUnits.mp hmem
  exact hpermit ▸ (mem_known.mp hgrant).2

/-- Where no prefix list is live, the declared units are what is left. -/
theorem settled_eq_some (hone : OneDescription declared)
    (hplain : ∀ permit, live permit ≠ none → permit.kind ≠ .prefixList) (permit : Permit)
    (label : String) :
    settled live declared permit = some label ↔ (permit, label) ∈ declaredUnits declared := by
  rw [mem_declaredUnits, settled]
  by_cases hdeclared : ∃ grant ∈ declaredGrants declared, grant.permit = permit
  · obtain ⟨grant, hmem, rfl⟩ := hdeclared
    rw [given_eq_some hone.grants hmem, Option.some_or, Option.some.injEq]
    constructor
    · rintro rfl
      exact ⟨grant, hmem, rfl, rfl⟩
    · rintro ⟨other, hother, hpermit, rfl⟩
      exact hone.grants grant hmem other hother hpermit.symm
  · have hnone : ∀ grant ∈ declaredGrants declared, grant.permit ≠ permit :=
      fun grant hmem heq => hdeclared ⟨grant, hmem, heq⟩
    have hleft : (if permit.kind = .prefixList then live permit else none) = none := by
      split
      · rename_i hkind
        exact not_not.mp fun hlive => hplain permit hlive hkind
      · rfl
    rw [given_eq_none hnone, Option.none_or, hleft]
    constructor
    · intro hsome
      cases hsome
    · rintro ⟨grant, hmem, hpermit, -⟩
      exact (hnone grant hmem hpermit).elim

/-! ## What is declared is live -/

section

variable (hreports : live.Reports permissions)
variable (hexact : ∀ permit label, live permit = some label ↔
  (permit, label) ∈ declaredUnits declared)

include hreports hexact

theorem known_of_exact : ∀ permission ∈ permissions, permission.known ≠ [] := by
  intro permission hmem hnone
  obtain ⟨grant, rest, hgrants⟩ := List.exists_cons_of_ne_nil (hreports.sourced permission hmem)
  have hgrant : grant ∈ permission.grants := hgrants ▸ List.mem_cons_self
  have hlive := (hreports.units grant.permit grant.label).mpr
    ⟨grant, List.mem_flatMap.mpr ⟨permission, hmem, hgrant⟩, rfl, rfl⟩
  have hkind := kind_of_mem_declaredUnits ((hexact _ _).mp hlive)
  have hknown := Permission.mem_known.mpr ⟨hgrant, hkind⟩
  rw [hnone] at hknown
  cases hknown

theorem unit_of_exact (unit : Permit × String) :
    (∃ grant ∈ known permissions, grant.permit = unit.1 ∧ grant.label = unit.2) ↔
      ∃ grant ∈ declaredGrants declared, grant.permit = unit.1 ∧ grant.label = unit.2 := by
  rw [← mem_declaredUnits, ← hexact unit.1 unit.2, hreports.units]
  constructor
  · rintro ⟨grant, hmem, hgrant⟩
    exact ⟨grant, (mem_known.mp hmem).1, hgrant⟩
  · rintro ⟨grant, hmem, hpermit, hlabel⟩
    have hlive := (hreports.units unit.1 unit.2).mpr ⟨grant, hmem, hpermit, hlabel⟩
    have hkind := kind_of_mem_declaredUnits ((hexact _ _).mp hlive)
    exact ⟨grant, mem_known.mpr ⟨hmem, hpermit ▸ hkind⟩, hpermit, hlabel⟩

theorem directionCalls_of_exact (direction : Direction) :
    directionCalls direction declared permissions = [] := by
  have hlive (grant : Grant) (hmem : grant ∈ declaredGrants declared) :
      live grant.permit = some grant.label :=
    (hexact _ _).mpr (mem_declaredUnits.mpr ⟨grant, hmem, rfl, rfl⟩)
  have hadded : added declared permissions = [] := by
    rw [added_eq hreports, List.map_eq_nil_iff, List.filter_eq_nil_iff]
    intro grant hmem
    rw [decide_eq_true_eq, hlive grant hmem]
    nofun
  have hrelabelled : relabelled declared permissions = [] := by
    rw [relabelled_eq hreports, List.map_eq_nil_iff, List.filter_eq_nil_iff]
    intro grant hmem
    rw [decide_eq_true_eq, hlive grant hmem]
    exact fun hother => hother.2 rfl
  have hstale : stale declared permissions = [] := by
    rw [stale, atomicUnits_of_known (known_of_exact hreports hexact), List.filter_eq_nil_iff]
    intro unit hunit
    obtain ⟨found, hfound, rfl⟩ := List.mem_map.mp hunit
    obtain ⟨grant, hmem, hpermit, -⟩ := (unit_of_exact hreports hexact
      (found.permit, found.label)).mp ⟨found, hfound, rfl, rfl⟩
    rw [Bool.not_eq_true', Bool.not_eq_false,
      hasRule_unit (mem_known.mp hfound).2]
    exact ⟨grant, hmem, hpermit⟩
  rw [directionCalls, hadded, hstale, hrelabelled]
  rfl

theorem reportedRules_of_exact :
    reportedRules (rulesFromAws permissions) declared = declared.map SgRule.toRuleFields := by
  rw [reportedRules, if_pos]
  refine rulesFromAws_congr fun rule => ?_
  rw [atomicUnits_of_known (known_of_exact hreports hexact), atomicUnits_declared, List.map_map,
    List.map_map, List.mem_map, List.mem_map]
  have hunit := unit_of_exact hreports hexact
  constructor
  · rintro ⟨found, hfound, rfl⟩
    obtain ⟨grant, hmem, hpermit, hlabel⟩ :=
      (hunit (found.permit, found.label)).mp ⟨found, hfound, rfl, rfl⟩
    exact ⟨grant, hmem, unitRule_unit hpermit hlabel⟩
  · rintro ⟨grant, hmem, rfl⟩
    obtain ⟨found, hfound, hpermit, hlabel⟩ :=
      (hunit (grant.permit, grant.label)).mpr ⟨grant, hmem, rfl, rfl⟩
    exact ⟨found, hfound, unitRule_unit hpermit hlabel⟩

end

end

/-! ## Both directions -/

namespace Account

variable {account after : Account} {group : SecurityGroup} {described : Described}

theorem run_append (calls others : List Call) :
    account.run (calls ++ others) = (account.run calls).bind (Account.run · others) :=
  List.foldlM_append

theorem run_callWith (direction : Direction) (action : Action) (permissions : List Permission) :
    account.run (callWith direction action permissions) =
      ((account direction).call action permissions).map (Function.update account direction) := by
  unfold callWith
  split
  · rename_i hnone
    subst hnone
    have hsame : (account direction).call action [] = some (account direction) := by
      cases action
      case authorize =>
        have hnone : ((grants []).map Grant.permit).Nodup ∧
            ∀ grant ∈ grants [], account direction grant.permit = none :=
          ⟨List.nodup_nil, List.forall_mem_nil _⟩
        rw [Live.call, Live.authorize, if_pos hnone]
        rfl
      case revoke => rfl
      case redescribe =>
        refine congrArg some (funext fun permit => ?_)
        cases hlive : account direction permit with
        | none => rw [Live.redescribe, hlive, Option.map_none]
        | some label =>
          rw [Live.redescribe, hlive]
          rfl
    rw [hsame, Option.map_some, Function.update_eq_self]
    rfl
  · exact bind_pure _

theorem run_directionCalls {direction : Direction} {declared : List SgRule}
    {permissions : List Permission} (hreports : (account direction).Reports permissions)
    (hone : OneDescription declared) :
    account.run (directionCalls direction declared permissions) =
      if Once (account direction) declared then
        some (Function.update account direction (settled (account direction) declared))
      else none := by
  rw [directionCalls, run_append, run_append, run_callWith, call_added hreports]
  split
  · rw [Option.map_some, Option.bind_some, run_callWith, Function.update_self, Live.call,
      Option.map_some, Option.bind_some, run_callWith, Function.update_self, Live.call,
      Option.map_some, calls_settle hreports hone, Function.update_idem, Function.update_idem]
  · rfl

/-- **The whole sync.** -/
theorem run_syncRules (hreports : ∀ direction, (account direction).Reports
      (described.permissions direction))
    (hone : ∀ direction, OneDescription (group.rules direction)) :
    account.run (syncRules group described) = some after ↔
      (∀ direction, Once (account direction) (group.rules direction)) ∧
        after = fun direction => settled (account direction) (group.rules direction) := by
  have hcalls : syncRules group described =
      directionCalls .ingress (group.rules .ingress) (described.permissions .ingress) ++
        directionCalls .egress (group.rules .egress) (described.permissions .egress) := by
    rw [syncRules, List.flatMap_cons, List.flatMap_singleton]
  rw [hcalls, run_append, run_directionCalls (hreports .ingress) (hone .ingress)]
  have hne : Direction.egress ≠ .ingress := nofun
  have hegress (live : Live) : Function.update account .ingress live .egress = account .egress :=
    Function.update_of_ne hne live account
  by_cases hingress : Once (account .ingress) (group.rules .ingress)
  · have hreports' : (Function.update account .ingress
        (settled (account .ingress) (group.rules .ingress)) .egress).Reports
          (described.permissions .egress) := by
      rw [hegress]
      exact hreports .egress
    rw [if_pos hingress, Option.bind_some, run_directionCalls hreports' (hone .egress), hegress]
    by_cases hsecond : Once (account .egress) (group.rules .egress)
    · rw [if_pos hsecond, Option.some.injEq]
      have hboth : (fun direction => settled (account direction) (group.rules direction)) =
          Function.update (Function.update account .ingress
            (settled (account .ingress) (group.rules .ingress))) .egress
            (settled (account .egress) (group.rules .egress)) := by
        funext direction
        cases direction
        case ingress =>
          rw [Function.update_of_ne hne.symm, Function.update_self]
        case egress => rw [Function.update_self]
      rw [hboth]
      constructor
      · rintro rfl
        refine ⟨fun direction => ?_, rfl⟩
        cases direction
        case ingress => exact hingress
        case egress => exact hsecond
      · exact fun hafter => hafter.2.symm
    · rw [if_neg hsecond]
      exact ⟨nofun, fun hafter => (hsecond (hafter.1 .egress)).elim⟩
  · rw [if_neg hingress]
    exact ⟨nofun, fun hafter => (hingress (hafter.1 .ingress)).elim⟩

end Account

/-- A sync converges: it is not refused, it leaves the declared units and no others, it authorizes
nothing twice, and from then on there is nothing to call and the declared rules are read. -/
structure Converges (group : SecurityGroup) (account : Account) (described : Described) : Prop where
  settles : ∃ after, account.run (syncRules group described) = some after ∧
    (∀ direction permit label, after direction permit = some label ↔
      (permit, label) ∈ declaredUnits (group.rules direction)) ∧
    ∀ next : Described, (∀ direction, (after direction).Reports (next.permissions direction)) →
      syncRules group next = [] ∧
        ∀ direction, read group next direction =
          (group.rules direction).map SgRule.toRuleFields
  fresh : ∀ call ∈ syncRules group described, call.action = .authorize →
    ((grants call.permissions).map Grant.permit).Nodup ∧
      ∀ grant ∈ grants call.permissions, account call.direction grant.permit = none

theorem mem_callWith {call : Call} {direction : Direction} {action : Action}
    {permissions : List Permission} (hmem : call ∈ callWith direction action permissions) :
    call = ⟨direction, action, permissions⟩ := by
  unfold callWith at hmem
  split at hmem
  · cases hmem
  · exact List.mem_singleton.mp hmem

/-- **The sync converges when no prefix list is live and no unit that is to be added is declared
twice.** -/
theorem sync_converges (group : SecurityGroup) (account : Account) (described : Described)
    (hreports : ∀ direction, (account direction).Reports (described.permissions direction))
    (hone : ∀ direction, OneDescription (group.rules direction)) :
    Converges group account described ↔ ∀ direction,
      (∀ permit, account direction permit ≠ none → permit.kind ≠ .prefixList) ∧
        Once (account direction) (group.rules direction) := by
  constructor
  · rintro ⟨⟨after, hrun, hexact, -⟩, -⟩ direction
    obtain ⟨honce, rfl⟩ := (Account.run_syncRules hreports hone).mp hrun
    refine ⟨fun permit hlive hkind => ?_, honce direction⟩
    obtain ⟨label, hlabel⟩ := Option.ne_none_iff_exists'.mp hlive
    have hnone : ∀ grant ∈ declaredGrants (group.rules direction), grant.permit ≠ permit :=
      fun grant hmem heq => (mem_known.mp hmem).2 (heq ▸ hkind)
    have hleft : settled (account direction) (group.rules direction) permit = some label := by
      rw [settled, given_eq_none hnone, if_pos hkind, hlabel, Option.none_or]
    exact kind_of_mem_declaredUnits ((hexact direction permit label).mp hleft) hkind
  · intro hplain
    have hexact (direction : Direction) := settled_eq_some (hone direction) (hplain direction).1
    refine ⟨⟨_, (Account.run_syncRules hreports hone).mpr
      ⟨fun direction => (hplain direction).2, rfl⟩, hexact, fun next hnext => ⟨?_, ?_⟩⟩, ?_⟩
    · refine List.flatMap_eq_nil_iff.mpr fun direction _ => ?_
      exact directionCalls_of_exact (hnext direction) (hexact direction) direction
    · intro direction
      exact reportedRules_of_exact (hnext direction) (hexact direction)
    · intro call hcall haction
      obtain ⟨direction, -, hcall⟩ := List.mem_flatMap.mp hcall
      rw [directionCalls, List.mem_append, List.mem_append] at hcall
      have hadded : call = ⟨direction, .authorize,
          added (group.rules direction) (described.permissions direction)⟩ := by
        rcases hcall with (hcall | hcall) | hcall
        · exact mem_callWith hcall
        · rw [mem_callWith hcall] at haction
          cases haction
        · rw [mem_callWith hcall] at haction
          cases haction
      subst hadded
      rw [added_eq (hreports direction), grants_map_unit]
      refine ⟨once_iff.mp (hplain direction).2, fun grant hmem => ?_⟩
      exact of_decide_eq_true (List.mem_filter.mp hmem).2

namespace Web

theorem reports_unit (grant : Grant) :
    Live.Reports (fun permit => if permit = grant.permit then some grant.label else none)
      [grant.unit] where
  sourced := by
    intro permission hmem
    rw [List.mem_singleton.mp hmem, grant.grants_unit]
    nofun
  units := by
    intro permit label
    have hgrants : grants [grant.unit] = [grant] := grants_map_unit [grant]
    rw [hgrants]
    by_cases hpermit : permit = grant.permit
    · simp [hpermit]
    · simp [hpermit, Ne.symm hpermit]

theorem reports_none : Live.Reports (fun _ => none) [] where
  sourced := List.forall_mem_nil _
  units _ _ := ⟨nofun, fun ⟨_, hmem, _⟩ => nomatch hmem⟩

def https (cidr : String) : SgRule where
  protocol := "tcp"
  fromPort := some 443
  toPort := some 443
  cidrBlocks := [cidr]
  ipv6CidrBlocks := []
  sourceSecurityGroupId := none
  description := ""
  ports _ := ⟨nofun, nofun⟩
  sourced := .inl nofun

/-- Two ranges on one port, and nothing outbound. -/
def group : SecurityGroup := ⟨[https "10.1.0.0/16", https "10.2.0.0/16"], []⟩

/-- The rule a new group starts with. -/
def allowAll : Grant := ⟨⟨"-1", none, none, .cidr, "0.0.0.0/0"⟩, none⟩

/-- A group with one live unit in one direction. -/
def holding (direction : Direction) (grant : Grant) : Account :=
  Function.update (fun _ _ => none) direction fun permit =>
    if permit = grant.permit then some grant.label else none

theorem reports_egress (grant : Grant) (direction : Direction) :
    (holding .egress grant direction).Reports
      (Described.permissions ⟨[], [grant.unit]⟩ direction) := by
  cases direction
  case ingress => exact reports_none
  case egress => exact reports_unit grant

theorem new_group_converges : Converges group (holding .egress allowAll) ⟨[], [allowAll.unit]⟩ := by
  refine (sync_converges group _ _ (reports_egress allowAll) fun direction => ?_).mpr
    fun direction => ⟨fun permit hlive hkind => ?_, ?_⟩
  · cases direction <;> simp +decide [OneDescription]
  · cases direction
    case ingress => exact hlive rfl
    case egress =>
      have hpermit : permit = allowAll.permit := by
        by_contra hother
        exact hlive (if_neg hother)
      rw [hpermit] at hkind
      cases hkind
  · cases direction <;> decide

/-- A prefix list that is allowed out. -/
def gateway : Grant := ⟨⟨"tcp", some 443, some 443, .prefixList, "pl-63a5400a"⟩, none⟩

/-- A live prefix list that is not declared stays live. -/
theorem prefix_list_not_revoked : ¬ ∀ (group : SecurityGroup) (account : Account)
    (described : Described),
    (∀ direction, (account direction).Reports (described.permissions direction)) →
    (∀ direction, OneDescription (group.rules direction)) → Converges group account described := by
  intro hall
  have hnone (direction : Direction) : OneDescription (SecurityGroup.rules ⟨[], []⟩ direction) := by
    cases direction <;> exact List.forall_mem_nil _
  obtain ⟨⟨after, hrun, hexact, -⟩, -⟩ :=
    hall ⟨[], []⟩ (holding .egress gateway) ⟨[], [gateway.unit]⟩ (reports_egress gateway) hnone
  obtain ⟨-, rfl⟩ := (Account.run_syncRules (reports_egress gateway) hnone).mp hrun
  exact nomatch (hexact .egress gateway.permit "").mp rfl

end Web

end Atlantide.Networking
