import Atlantide.Core.AsciiText
import Atlantide.Lib.Sorting

/-! # Firewall rules as EC2 states them

A declared rule is translated to a permission of EC2, and permissions are split to one source each.
The split and the comparison of its units are those of the code; what a permission grants is told
source by source, prefix lists included, which the split leaves out. -/

namespace Atlantide.Networking

open Canonical PrefixCode Sorting Value

/-- The lists of a permission. -/
inductive SourceKind
  | cidr
  | cidr6
  | group
  | prefixList
  deriving DecidableEq

structure Entry where
  source : String
  description : Option String
  deriving DecidableEq

/-- `IpPermission` -/
structure Permission where
  ipProtocol : String
  fromPort : Option Int
  toPort : Option Int
  ipRanges : List Entry
  ipv6Ranges : List Entry
  userIdGroupPairs : List Entry
  prefixListIds : List Entry
  deriving DecidableEq

/-- What a rule holds, declared or read back. -/
structure RuleFields where
  protocol : String
  fromPort : Option Int
  toPort : Option Int
  cidrBlocks : List String
  ipv6CidrBlocks : List String
  sourceSecurityGroupId : Option String
  description : String
  deriving DecidableEq

namespace RuleFields

variable (rule : RuleFields)

/-- The group, unless it is the empty text. -/
def sourceGroup : Option String := rule.sourceSecurityGroupId.filter (· ≠ "")

/-- A port, which a rule for every protocol has none of. -/
def effective (port : Option Int) : Option Int := if rule.protocol ≠ "-1" then port else none

end RuleFields

/-- A rule that its validation accepts. -/
structure SgRule extends RuleFields where
  ports : protocol ≠ "-1" → fromPort ≠ none ∧ toPort ≠ none
  sourced : cidrBlocks ≠ [] ∨ ipv6CidrBlocks ≠ [] ∨ toRuleFields.sourceGroup ≠ none

def ruleToAws (rule : SgRule) : Permission :=
  let described (source : String) : Entry :=
    ⟨source, if rule.description ≠ "" then some rule.description else none⟩
  { ipProtocol := rule.protocol
    fromPort := rule.effective rule.fromPort
    toPort := rule.effective rule.toPort
    ipRanges := rule.cidrBlocks.map described
    ipv6Ranges := rule.ipv6CidrBlocks.map described
    userIdGroupPairs := rule.sourceGroup.toList.map described
    prefixListIds := [] }

def Permission.base (permission : Permission) : Permission :=
  { permission with
    ipRanges := []
    ipv6Ranges := []
    userIdGroupPairs := []
    prefixListIds := [] }

def atomicUnits (permissions : List Permission) : List Permission :=
  permissions.flatMap fun permission =>
    (permission.ipRanges.map fun entry => { permission.base with ipRanges := [entry] }) ++
    (permission.ipv6Ranges.map fun entry => { permission.base with ipv6Ranges := [entry] }) ++
    (permission.userIdGroupPairs.map fun entry =>
      { permission.base with userIdGroupPairs := [entry] }) ++
    if permission.ipRanges = [] ∧ permission.ipv6Ranges = [] ∧ permission.userIdGroupPairs = []
    then [permission.base] else []

/-- Sources in order. -/
def sources (entries : List Entry) : List String := sortBy id (entries.map Entry.source)

def identity (permission : Permission) :
    String × Option Int × Option Int × List String × List String × List String :=
  (permission.ipProtocol, permission.fromPort, permission.toPort, sources permission.ipRanges,
    sources permission.ipv6Ranges, sources permission.userIdGroupPairs)

def hasRule (permissions : List Permission) (permission : Permission) : Bool :=
  permissions.any fun other => identity other = identity permission

/-- `_source`, with the list it is from. -/
def sourceOf (unit : Permission) : Option (SourceKind × Entry) :=
  (unit.ipRanges.map (SourceKind.cidr, ·) ++ unit.ipv6Ranges.map (SourceKind.cidr6, ·) ++
    unit.userIdGroupPairs.map (SourceKind.group, ·)).head?

def description (unit : Permission) : String :=
  ((sourceOf unit).bind fun found => found.2.description).getD ""

def redescribed (desired current : List Permission) : List Permission :=
  desired.filter fun unit => current.any fun live =>
    identity live = identity unit && description live ≠ description unit

/-- The unit's source, if it is of a kind. -/
def sourceIn (unit : Permission) (kind : SourceKind) : Option String :=
  (sourceOf unit).bind fun found => if found.1 = kind then some found.2.source else none

/-- `_unit_rule` -/
def unitRule (unit : Permission) : RuleFields :=
  { protocol := unit.ipProtocol
    fromPort := unit.fromPort
    toPort := unit.toPort
    cidrBlocks := (sourceIn unit .cidr).toList
    ipv6CidrBlocks := (sourceIn unit .cidr6).toList
    sourceSecurityGroupId := sourceIn unit .group
    description := description unit }

namespace RuleFields

def listText : List String → List Char
  | [] => ['[', ']']
  | first :: rest =>
    '[' :: (asciiDumps first ++ quoted (fun item => ',' :: ' ' :: asciiDumps item) ']' rest)

/-- A text, or `null`. -/
def optionText : Option String → List Char
  | none => "null".toList
  | some text => asciiDumps text

/-- A number, or `null`. -/
def portText : Option Int → List Char
  | none => "null".toList
  | some port => (toString port).toList

/-- `json.dumps(rule, sort_keys=True)` -/
def dumps (rule : RuleFields) : List Char :=
  let field (name : String) (text : List Char) := asciiDumps name ++ ':' :: ' ' :: text
  openBrace :: (field "cidr_blocks" (listText rule.cidrBlocks) ++
    ',' :: ' ' :: (field "description" (asciiDumps rule.description) ++
    ',' :: ' ' :: (field "from_port" (portText rule.fromPort) ++
    ',' :: ' ' :: (field "ipv6_cidr_blocks" (listText rule.ipv6CidrBlocks) ++
    ',' :: ' ' :: (field "protocol" (asciiDumps rule.protocol) ++
    ',' :: ' ' :: (field "source_security_group_id" (optionText rule.sourceSecurityGroupId) ++
    ',' :: ' ' :: (field "to_port" (portText rule.toPort) ++ [closeBrace])))))))

end RuleFields

def rulesFromAws (permissions : List Permission) : List RuleFields :=
  let rules := (atomicUnits permissions).map unitRule
  (rules.foldl (fun (table : Dict String RuleFields) rule =>
    table.insert (String.ofList rule.dumps) rule) ∅).values

/-- `_reported_rules` -/
def reportedRules (live : List RuleFields) (declared : List SgRule) : List RuleFields :=
  if live = rulesFromAws (declared.map ruleToAws) then declared.map SgRule.toRuleFields else live

/-! ## Rules and their texts -/

namespace RuleFields

theorem reads_listText (items : List String) : Reads everything listText anything items := by
  have hitem (item : String) :
      Reads everything (fun item => ',' :: ' ' :: asciiDumps item) anything item := by
    intro other rest rest' hdomain hrest hrest' heq
    simp only [List.cons_append, List.cons.injEq, true_and] at heq
    exact reads_asciiDumps item other rest rest' hdomain hrest hrest' heq
  have hclose (item : String) (rest rest' : List Char) :
      ',' :: ' ' :: asciiDumps item ++ rest ≠ ']' :: rest' := by
    intro heq
    rw [List.cons_append, List.cons.injEq] at heq
    exact absurd heq.1 (by decide)
  intro other rest rest' _ hrest hrest' heq
  cases items with
  | nil =>
    cases other with
    | nil => exact ⟨rfl, List.append_cancel_left heq⟩
    | cons first others =>
      simp only [listText, asciiDumps, List.cons_append, List.cons.injEq, true_and] at heq
      exact absurd heq.1 (by decide)
  | cons first items =>
    cases other with
    | nil =>
      simp only [listText, asciiDumps, List.cons_append, List.cons.injEq, true_and] at heq
      exact absurd heq.1 (by decide)
    | cons first' others =>
      simp only [listText, List.cons_append, List.cons.injEq, true_and, List.append_assoc] at heq
      obtain ⟨rfl, hafter⟩ := reads_asciiDumps first first' _ _ trivial trivial trivial heq
      obtain ⟨rfl, hrest⟩ :=
        reads_quoted hitem hclose items others rest rest' trivial hrest hrest' hafter
      exact ⟨rfl, hrest⟩

theorem reads_optionText (text : Option String) :
    Reads everything optionText anything text := by
  intro other rest rest' _ hrest hrest' heq
  cases text with
  | none =>
    cases other with
    | none => exact ⟨rfl, List.append_cancel_left heq⟩
    | some other =>
      have hhead := congrArg List.head? heq
      exact absurd hhead (by simp [optionText, asciiDumps, quote])
  | some text =>
    cases other with
    | none =>
      have hhead := congrArg List.head? heq
      exact absurd hhead (by simp [optionText, asciiDumps, quote])
    | some other =>
      obtain ⟨rfl, hrest⟩ := reads_asciiDumps text other rest rest' trivial hrest hrest' heq
      exact ⟨rfl, hrest⟩

theorem portText_none_ne (port : Int) (rest rest' : List Char) :
    portText none ++ rest ≠ portText (some port) ++ rest' := by
  intro heq
  obtain ⟨hsome, hdigits⟩ := int_text port
  obtain ⟨digit, digits, htext⟩ := List.exists_cons_of_ne_nil hsome
  have hdigit : 'n' = digit := by
    rw [portText, portText, htext] at heq
    exact (List.cons.inj heq).1
  subst hdigit
  rcases hdigits 'n' (htext ▸ List.mem_cons_self) with hdigit | hdigit
  · exact absurd hdigit (by decide)
  · exact absurd hdigit (by decide)

theorem reads_portText (port : Option Int) : Reads everything portText Ends port := by
  intro other rest rest' _ hrest hrest' heq
  cases port with
  | none =>
    cases other with
    | none => exact ⟨rfl, List.append_cancel_left heq⟩
    | some other => exact (portText_none_ne other _ _ heq).elim
  | some port =>
    cases other with
    | none => exact (portText_none_ne port _ _ heq.symm).elim
    | some other =>
      obtain ⟨hsame, hrest⟩ := reads_numbers (int_text_numeric port) (int_text_numeric other)
        hrest hrest' heq
      rw [int_text_injective hsame]
      exact ⟨rfl, hrest⟩

/-- **No two rules have one text.** -/
theorem dumps_injective : Function.Injective dumps := by
  intro rule other heq
  have hcomma (rest : List Char) : Ends (',' :: rest) := ends_cons (by decide) rest
  have hclose : Ends [closeBrace] := ends_cons (by decide) []
  simp only [dumps, List.append_assoc, List.cons_append, List.cons.injEq, true_and,
    List.append_cancel_left_eq] at heq
  obtain ⟨hcidr, heq⟩ := reads_listText _ _ _ _ trivial trivial trivial heq
  simp only [List.cons.injEq, true_and, List.append_cancel_left_eq] at heq
  obtain ⟨hdescription, heq⟩ := reads_asciiDumps _ _ _ _ trivial trivial trivial heq
  simp only [List.cons.injEq, true_and, List.append_cancel_left_eq] at heq
  obtain ⟨hfrom, heq⟩ := reads_portText _ _ _ _ trivial (hcomma _) (hcomma _) heq
  simp only [List.cons.injEq, true_and, List.append_cancel_left_eq] at heq
  obtain ⟨hcidr6, heq⟩ := reads_listText _ _ _ _ trivial trivial trivial heq
  simp only [List.cons.injEq, true_and, List.append_cancel_left_eq] at heq
  obtain ⟨hprotocol, heq⟩ := reads_asciiDumps _ _ _ _ trivial trivial trivial heq
  simp only [List.cons.injEq, true_and, List.append_cancel_left_eq] at heq
  obtain ⟨hgroup, heq⟩ := reads_optionText _ _ _ _ trivial trivial trivial heq
  simp only [List.cons.injEq, true_and, List.append_cancel_left_eq] at heq
  obtain ⟨hto, -⟩ := reads_portText _ _ _ _ trivial hclose hclose heq
  cases rule
  cases other
  simp only at hcidr hdescription hfrom hcidr6 hprotocol hgroup hto
  subst hcidr hdescription hfrom hcidr6 hprotocol hgroup hto
  rfl

end RuleFields

theorem rulesFromAws_congr {permissions others : List Permission}
    (hsame : ∀ rule, rule ∈ (atomicUnits permissions).map unitRule ↔
      rule ∈ (atomicUnits others).map unitRule) :
    rulesFromAws permissions = rulesFromAws others := by
  have hkey {rule other : RuleFields} (heq : String.ofList rule.dumps = String.ofList other.dumps) :
      rule = other :=
    RuleFields.dumps_injective (String.ofList_injective heq)
  have hfound (rules : List RuleFields) (name : String) (rule : RuleFields) :
      (rules.foldl (fun (table : Dict String RuleFields) rule =>
        table.insert (String.ofList rule.dumps) rule) ∅)[name]? = some rule ↔
        rule ∈ rules ∧ String.ofList rule.dumps = name := by
    constructor
    · intro hsome
      rcases mem_of_getElem?_foldl_insert hsome with hmem | hnone
      · exact hmem
      · rw [Std.ExtTreeMap.getElem?_empty] at hnone
        cases hnone
    · rintro ⟨hmem, rfl⟩
      refine getElem?_foldl_insert_of_forall_eq ?_ rfl fun other _ heq => hkey heq
      exact .inl hmem
  refine congrArg Std.ExtTreeMap.values
    (Std.ExtTreeMap.ext_getElem? fun name => Option.ext fun rule => ?_)
  rw [hfound, hfound, hsame]

/-! ## What permissions grant -/

/-- What one unit permits. -/
structure Permit where
  protocol : String
  fromPort : Option Int
  toPort : Option Int
  kind : SourceKind
  source : String
  deriving DecidableEq

structure Grant where
  permit : Permit
  description : Option String
  deriving DecidableEq

namespace Grant

variable (grant : Grant)

def label : String := grant.description.getD ""

/-- The permission with no other source. -/
def unit : Permission :=
  let only (kind : SourceKind) : List Entry :=
    if grant.permit.kind = kind then [⟨grant.permit.source, grant.description⟩] else []
  { ipProtocol := grant.permit.protocol
    fromPort := grant.permit.fromPort
    toPort := grant.permit.toPort
    ipRanges := only .cidr
    ipv6Ranges := only .cidr6
    userIdGroupPairs := only .group
    prefixListIds := only .prefixList }

end Grant

namespace Permission

variable (permission : Permission)

def grantsOf (kind : SourceKind) (entries : List Entry) : List Grant :=
  entries.map fun entry =>
    ⟨⟨permission.ipProtocol, permission.fromPort, permission.toPort, kind, entry.source⟩,
      entry.description⟩

/-- The grants of the lists that the code knows. -/
def known : List Grant :=
  permission.grantsOf .cidr permission.ipRanges ++ permission.grantsOf .cidr6 permission.ipv6Ranges ++
    permission.grantsOf .group permission.userIdGroupPairs

def grants : List Grant := permission.known ++ permission.grantsOf .prefixList permission.prefixListIds

variable {permission}

theorem kind_of_mem_known {grant : Grant} (hmem : grant ∈ permission.known) :
    grant.permit.kind ≠ .prefixList := by
  simp only [known, grantsOf, List.mem_append, List.mem_map] at hmem
  rcases hmem with (⟨entry, -, rfl⟩ | ⟨entry, -, rfl⟩) | ⟨entry, -, rfl⟩ <;>
    exact SourceKind.noConfusion

theorem mem_known {grant : Grant} :
    grant ∈ permission.known ↔ grant ∈ permission.grants ∧ grant.permit.kind ≠ .prefixList := by
  constructor
  · exact fun hmem => ⟨List.mem_append_left _ hmem, kind_of_mem_known hmem⟩
  · rintro ⟨hmem, hkind⟩
    rcases List.mem_append.mp hmem with hmem | hmem
    · exact hmem
    · obtain ⟨entry, -, rfl⟩ := List.mem_map.mp hmem
      exact (hkind rfl).elim

end Permission

def grants (permissions : List Permission) : List Grant := permissions.flatMap Permission.grants

def known (permissions : List Permission) : List Grant := permissions.flatMap Permission.known

theorem mem_known {permissions : List Permission} {grant : Grant} :
    grant ∈ known permissions ↔ grant ∈ grants permissions ∧ grant.permit.kind ≠ .prefixList := by
  simp only [known, grants, List.mem_flatMap, Permission.mem_known]
  constructor
  · rintro ⟨permission, hmem, hgrant, hkind⟩
    exact ⟨⟨permission, hmem, hgrant⟩, hkind⟩
  · rintro ⟨⟨permission, hmem, hgrant⟩, hkind⟩
    exact ⟨permission, hmem, hgrant, hkind⟩

theorem Grant.grants_unit (grant : Grant) : grant.unit.grants = [grant] := by
  obtain ⟨⟨protocol, fromPort, toPort, kind, source⟩, description⟩ := grant
  cases kind <;> rfl

theorem grants_map_unit (items : List Grant) : grants (items.map Grant.unit) = items := by
  induction items with
  | nil => rfl
  | cons grant items ih =>
    rw [grants, List.map_cons, List.flatMap_cons, grant.grants_unit, ← grants, ih,
      List.singleton_append]

/-! ## The split -/

/-- A unit for each source it knows; a permission with none is a unit itself. -/
theorem atomicUnits_eq (permissions : List Permission) :
    atomicUnits permissions = permissions.flatMap fun permission =>
      permission.known.map Grant.unit ++ if permission.known = [] then [permission.base] else [] := by
  unfold atomicUnits
  congr 1
  funext permission
  have hnone : permission.known = [] ↔ permission.ipRanges = [] ∧ permission.ipv6Ranges = [] ∧
      permission.userIdGroupPairs = [] := by
    simp [Permission.known, Permission.grantsOf]
  rw [if_congr hnone rfl rfl, Permission.known, List.map_append, List.map_append]
  unfold Permission.grantsOf
  rw [List.map_map, List.map_map, List.map_map]
  rfl

theorem mem_atomicUnits {permissions : List Permission} {unit : Permission} :
    unit ∈ atomicUnits permissions ↔ (∃ grant ∈ known permissions, grant.unit = unit) ∨
      ∃ permission ∈ permissions, permission.known = [] ∧ permission.base = unit := by
  rw [atomicUnits_eq, List.mem_flatMap]
  constructor
  · rintro ⟨permission, hmem, hunit⟩
    rcases List.mem_append.mp hunit with hunit | hunit
    · obtain ⟨grant, hgrant, rfl⟩ := List.mem_map.mp hunit
      exact .inl ⟨grant, List.mem_flatMap.mpr ⟨permission, hmem, hgrant⟩, rfl⟩
    · split at hunit
      · rename_i hnone
        exact .inr ⟨permission, hmem, hnone, (List.mem_singleton.mp hunit).symm⟩
      · cases hunit
  · rintro (⟨grant, hgrant, rfl⟩ | ⟨permission, hmem, hnone, rfl⟩)
    · obtain ⟨permission, hmem, hgrant⟩ := List.mem_flatMap.mp hgrant
      exact ⟨permission, hmem, List.mem_append_left _ (List.mem_map_of_mem hgrant)⟩
    · refine ⟨permission, hmem, List.mem_append_right _ ?_⟩
      rw [if_pos hnone]
      exact List.mem_singleton_self _

theorem atomicUnits_of_known {permissions : List Permission}
    (hknown : ∀ permission ∈ permissions, permission.known ≠ []) :
    atomicUnits permissions = (known permissions).map Grant.unit := by
  rw [atomicUnits_eq, known, List.map_flatMap]
  refine List.flatMap_congr fun permission hmem => ?_
  rw [if_neg (hknown permission hmem), List.append_nil]

/-! ## The comparison -/

section

variable {grant other : Grant} {permission : Permission}

theorem identity_unit (hkind : grant.permit.kind ≠ .prefixList)
    (hkind' : other.permit.kind ≠ .prefixList) :
    identity grant.unit = identity other.unit ↔ grant.permit = other.permit := by
  obtain ⟨⟨protocol, fromPort, toPort, kind, source⟩, description⟩ := grant
  obtain ⟨⟨protocol', fromPort', toPort', kind', source'⟩, description'⟩ := other
  cases kind <;> cases kind' <;>
    simp_all [identity, Grant.unit, sources, sortBy]

theorem identity_unit_ne_base (hkind : grant.permit.kind ≠ .prefixList) :
    identity grant.unit ≠ identity permission.base := by
  obtain ⟨⟨protocol, fromPort, toPort, kind, source⟩, description⟩ := grant
  cases kind <;> simp_all [identity, Grant.unit, Permission.base, sources, sortBy]

theorem description_unit (hkind : grant.permit.kind ≠ .prefixList) :
    description grant.unit = grant.label := by
  obtain ⟨⟨protocol, fromPort, toPort, kind, source⟩, description⟩ := grant
  cases kind
  case prefixList => exact (hkind rfl).elim
  all_goals rfl

/-- What a unit is read as is told by what it permits and its description. -/
theorem unitRule_unit (hpermit : grant.permit = other.permit) (hlabel : grant.label = other.label) :
    unitRule grant.unit = unitRule other.unit := by
  obtain ⟨⟨protocol, fromPort, toPort, kind, source⟩, description⟩ := grant
  obtain ⟨permit, description'⟩ := other
  subst hpermit
  cases kind
  case prefixList => rfl
  all_goals
    change description.getD "" = description'.getD "" at hlabel
    change RuleFields.mk _ _ _ _ _ _ (description.getD "") =
      RuleFields.mk _ _ _ _ _ _ (description'.getD "")
    rw [hlabel]
    rfl

theorem hasRule_unit {permissions : List Permission} (hkind : grant.permit.kind ≠ .prefixList) :
    hasRule (atomicUnits permissions) grant.unit = true ↔
      ∃ found ∈ known permissions, found.permit = grant.permit := by
  simp only [hasRule, List.any_eq_true, decide_eq_true_eq]
  constructor
  · rintro ⟨unit, hunit, hsame⟩
    rcases mem_atomicUnits.mp hunit with ⟨found, hfound, rfl⟩ | ⟨permission, -, -, rfl⟩
    · exact ⟨found, hfound, (identity_unit (mem_known.mp hfound).2 hkind).mp hsame⟩
    · exact (identity_unit_ne_base hkind hsame.symm).elim
  · rintro ⟨found, hfound, hsame⟩
    exact ⟨found.unit, mem_atomicUnits.mpr (.inl ⟨found, hfound, rfl⟩),
      (identity_unit (mem_known.mp hfound).2 hkind).mpr hsame⟩

end

/-! ## Declared rules -/

namespace SgRule

variable (rule : SgRule)

/-- What a rule permits, source by source. -/
def permits : List Permit :=
  let permit (kind : SourceKind) (source : String) : Permit :=
    ⟨rule.protocol, rule.effective rule.fromPort, rule.effective rule.toPort, kind, source⟩
  rule.cidrBlocks.map (permit .cidr) ++ rule.ipv6CidrBlocks.map (permit .cidr6) ++
    rule.sourceGroup.toList.map (permit .group)

/-- The one-source units of a rule, each with the rule's description. -/
def units : List (Permit × String) := rule.permits.map fun permit => (permit, rule.description)

theorem known_ruleToAws :
    (ruleToAws rule).known.map (fun grant => (grant.permit, grant.label)) = rule.units := by
  have hlabel : (if rule.description ≠ "" then some rule.description else none).getD "" =
      rule.description := by
    split
    · rfl
    · rename_i hnone
      exact (not_not.mp hnone).symm
  simp only [units, permits, Permission.known, Permission.grantsOf, ruleToAws, List.map_append,
    List.map_map]
  unfold Function.comp Grant.label
  simp only [hlabel]

theorem known_ruleToAws_ne : (ruleToAws rule).known ≠ [] := by
  intro hnone
  have hunits := congrArg (List.map fun grant => (grant.permit, grant.label)) hnone
  rw [known_ruleToAws, List.map_nil, units, List.map_eq_nil_iff, permits, List.append_eq_nil_iff,
    List.append_eq_nil_iff, List.map_eq_nil_iff, List.map_eq_nil_iff, List.map_eq_nil_iff,
    Option.toList_eq_nil_iff] at hunits
  rcases rule.sourced with hsome | hsome | hsome
  · exact hsome hunits.1.1
  · exact hsome hunits.1.2
  · exact hsome hunits.2

end SgRule

def declaredGrants (declared : List SgRule) : List Grant := known (declared.map ruleToAws)

def declaredUnits (declared : List SgRule) : List (Permit × String) := declared.flatMap SgRule.units

theorem declaredGrants_map (declared : List SgRule) :
    (declaredGrants declared).map (fun grant => (grant.permit, grant.label)) =
      declaredUnits declared := by
  rw [declaredGrants, known, List.flatMap_map, List.map_flatMap, declaredUnits]
  exact List.flatMap_congr fun rule _ => rule.known_ruleToAws

theorem atomicUnits_declared (declared : List SgRule) :
    atomicUnits (declared.map ruleToAws) = (declaredGrants declared).map Grant.unit := by
  refine atomicUnits_of_known fun permission hmem => ?_
  obtain ⟨rule, -, rfl⟩ := List.mem_map.mp hmem
  exact rule.known_ruleToAws_ne

end Atlantide.Networking
