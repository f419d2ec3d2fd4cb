import Atlantide.Lang.Runtime

/-! # Fuel prices

What evaluation work costs beyond one step a node: the work a single node can hand to a native. The
prices that count nodes stop counting past a limit, the fuel that is left, and are shown here to be
the same for every limit they stay within. -/

namespace Atlantide.Lang

def maxIntBits : Nat := 2 ^ 16

def freeConcat : Nat := 1024

def outputRate : Nat := 16

/-- `sys.maxsize`, which stands for a length too long to count. -/
def maxSize : Nat := 2 ^ 63 - 1

variable {A X : Type}

namespace Shape

/-- `NESTED`. -/
def nested : Shape A → Bool
  | dict .. | seq .. => true
  | _ => false

/-- `_TEXT`. -/
def text : Shape A → Bool
  | str _ | bytes _ => true
  | _ => false

/-- `_SEQUENCE`. -/
def sequence : Shape A → Bool
  | str _ | bytes _ | seq .list _ | seq .tuple _ => true
  | _ => false

/-- A `set` or a `frozenset`. -/
def isSet : Shape A → Bool
  | seq .set _ | seq .frozenset _ => true
  | _ => false

/-- `_sized_len`. -/
def sizedLen : Shape A → Nat
  | dict keys _ => keys.length
  | seq _ items => items.length
  | str content => content.length
  | bytes content => content.length
  | leaf (.counted count) => count
  | leaf .uncountable => maxSize
  | leaf .unsized => 0
  | int _ | slice .. | badSlice => 0

/-- What one visited value adds to a walk's cost. -/
def nodeCost : Shape A → Nat
  | str content => 1 + content.length / 64
  | bytes content => 1 + content.length / 64
  | shape => 1 + shape.sizedLen

/-- What a walk pushes after a value, the next one to visit first. -/
def children : Shape A → List (Value A)
  | dict keys values => (keys ++ values).reverse
  | seq _ items => items.reverse
  | _ => []

theorem one_le_nodeCost (shape : Shape A) : 1 ≤ shape.nodeCost := by
  cases shape <;> simp only [nodeCost] <;> omega

end Shape

section Walk

variable (look : Value A → Shape A)

/-- The loop of `deep_cost`. Each value costs a step at least, so `limit + 1` rounds pass the limit. -/
def deepWalk (limit : Nat) : Nat → List (Value A) → Nat → Nat
  | 0, _, total => total
  | _ + 1, [], total => total
  | rounds + 1, item :: stack, total =>
    let next := total + (look item).nodeCost
    if limit < next then next else deepWalk limit rounds ((look item).children ++ stack) next

/-- `deep_cost`. -/
def deepCost (value : Value A) (limit : Nat) : Nat :=
  if (look value).nested then deepWalk look limit (limit + 1) [value] 0
  else 1 + (look value).sizedLen

/-- The argument loop of `native_call_cost`. -/
def argsCost (limit : Nat) : List (Value A) → Nat → Nat
  | [], total => total
  | value :: rest, total =>
    let next := total + deepCost look value (limit - total)
    if limit < next then next else argsCost limit rest next

end Walk

/-- `CONSTANT_TIME_METHODS`. -/
def constantTimeMethods : List String :=
  ["append", "get", "setdefault", "pop", "keys", "values", "items"]

/-- `_PADDING`. -/
def padding : List String := ["ljust", "rjust", "center", "zfill"]

/-- `_RECEIVER_FREE`. -/
def receiverFree : List String :=
  constantTimeMethods ++
    ["__getitem__", "__len__", "add", "discard", "extend", "popitem", "update"]

section Calls

variable (look : Value A → Shape A)

/-- `_is_constant_time`. -/
def isConstantTime (callee : Callee A) : Bool :=
  (match callee.builtin with
    | some .len | some .bool | some .isinstance => true
    | _ => false) ||
  (match callee.receiver.map look with
    | some (.seq .list _) | some (.dict ..) => callee.name.any (· ∈ constantTimeMethods)
    | _ => false)

/-- A tuple or a frozenset, whose hash walks it. -/
def hashedKey (key : Value A) : Bool :=
  match look key with
  | .seq .tuple _ | .seq .frozenset _ => true
  | _ => false

/-- `_key_cost`. -/
def keyCost (callee : Callee A) (args : List (Value A)) (limit : Nat) : Nat :=
  match callee.receiver.map look, args with
  | some (.dict ..), key :: _ => if hashedKey look key then deepCost look key limit else 0
  | _, _ => 0

/-- `_size_cost`. -/
def sizeCost (size : Nat) : Nat := if freeConcat < size then size / outputRate else 0

/-- `_join_size`. -/
def joinSize (separator : Nat) (items : Value A) : Nat :=
  let count := (look items).sizedLen
  if count = 0 ∨ count = maxSize then 0
  else
    let textLen (item : Value A) := if (look item).text then (look item).sizedLen else 0
    separator * (count - 1) +
      match look items with
      | .dict keys _ => (keys.map textLen).sum
      | .seq _ elements => (elements.map textLen).sum
      | .str content => content.length
      | _ => 0

/-- `_replace_bound`. -/
def replaceBound (size : Nat) (old new : Shape A) (count : Option (Shape A)) : Nat :=
  if ¬ (old.text ∧ new.text) then 0
  else if new.sizedLen ≤ old.sizedLen then size
  else
    let found := if old.sizedLen = 0 then size + 1 else size / old.sizedLen + 1
    let replaced := match count with
      | some (.int bound) => if 0 ≤ bound then min found bound.toNat else found
      | _ => found
    size + replaced * (new.sizedLen - old.sizedLen)

/-- The output of a text method, by the text's length. -/
def textOutput (size : Nat) (name : Option String) (args : List (Value A))
    (kwargs : List (String × Value A)) : Nat :=
  match name, args with
  | some "join", items :: _ => sizeCost (joinSize look size items)
  | some "replace", old :: new :: rest =>
    let count := (rest.head?.or (kwargs.lookup "count")).map look
    sizeCost (replaceBound size (look old) (look new) count)
  | some method, width :: _ =>
    match look width with
    | .int value => if method ∈ padding then sizeCost value.toNat else 0
    | _ => 0
  | _, _ => 0

/-- `_output_cost`. -/
def outputCost (callee : Callee A) (args : List (Value A)) (kwargs : List (String × Value A)) :
    Except (Failure X) Nat :=
  if callee.builtin = some .sum then
    match (args[1]?.or (kwargs.lookup "start")).map look with
    | some (.seq .list _) | some (.seq .tuple _) => .error (.refused .quadraticSum)
    | _ => .ok 0
  else
    let unbound := callee.receiver.isNone && callee.unboundMethod
    let owner := if unbound then args.head? else callee.receiver
    let args := if unbound then args.tail else args
    match owner.map look with
    | some (.str content) => .ok (textOutput look content.length callee.name args kwargs)
    | some (.bytes content) => .ok (textOutput look content.length callee.name args kwargs)
    | some (.int _) =>
      if callee.name = some "to_bytes" then
        match (args.head?.or (kwargs.lookup "length")).map look with
        | some (.int length) => .ok (sizeCost length.toNat)
        | _ => .ok 0
      else .ok 0
    | _ => .ok 0

/-- `native_call_cost`. -/
def nativeCallCost (callee : Callee A) (args : List (Value A)) (kwargs : List (String × Value A))
    (limit : Nat) : Except (Failure X) Nat :=
  if isConstantTime look callee then
    .ok (args.length + kwargs.length + keyCost look callee args limit)
  else
    let total := argsCost look limit (args ++ kwargs.map (·.2)) 0
    if limit < total then .ok total else (outputCost look callee args kwargs).map (total + ·)

end Calls

/-- `_spec_int`. -/
def specInt (digits : List Char) : Nat :=
  if digits.length ≤ 18 then digits.foldl (fun value digit => value * 10 + (digit.toNat - 48)) 0
  else maxSize

/-- The maximal digit runs of a text, `run` being the one that is open. -/
def digitRuns : List Char → List Char → List (List Char)
  | [], run => [run]
  | char :: rest, run =>
    if char.isDigit then digitRuns rest (run ++ [char]) else run :: digitRuns rest []

/-- `format_cost`. -/
def formatCost (spec : String) : Nat := sizeCost ((digitRuns spec.toList []).map specInt).sum

def bitLength (value : Int) : Nat := if value = 0 then 0 else Nat.log2 value.natAbs + 1

/-- The exponent of the last place in the largest floats. -/
def maxExponent : Int := 971

/-- `int(right * math.log2(abs(left))) + 1`, unless the exponent or the product is too large for a
float. -/
def powBits (log2 : Nat → Double) (left right : Nat) (hright : 0 < right) : Option Nat :=
  let factor := Binary.Normal.ofNat 52 right hright
  let product := factor.mul (log2 left)
  if maxExponent < factor.exponent then none
  else if maxExponent < product.exponent then none
  else some (product.floor + 1)

/-- `_int_result_bits`; none where it raises an `OverflowError`. -/
def intResultBits (log2 : Nat → Double) (op : Operator) (left right : Int) : Option Nat :=
  match op with
  | .mult => some (bitLength left + bitLength right)
  | .lShift => some (bitLength left + right.toNat)
  | .pow =>
    if hright : right ≤ 0 ∨ left.natAbs ≤ 1 then some 1
    else powBits log2 left.natAbs right.toNat (by omega)
  | .floorDiv | .mod | .rShift => some (max (bitLength left) (bitLength right))
  | _ => some (max (bitLength left) (bitLength right) + 1)

section Operators

variable {H N : Type} (runtime : Runtime A X H N) (look : Value A → Shape A)

/-- The integers among what a `*` of a printf template may take. -/
def printfInts (value : Value A) : List Int :=
  let candidates := match look value with
    | .seq .tuple items => items
    | _ => [value]
  candidates.filterMap fun candidate => match look candidate with
    | .int number => some number
    | _ => none

/-- `binop_cost`. -/
def binopCost (op : Operator) (left right : Value A) : Except (Failure X) Nat :=
  match look left, look right with
  | .int leftInt, .int rightInt =>
    match intResultBits runtime.log2 op leftInt rightInt with
    | none => .error (.native runtime.overflow)
    | some bits => if maxIntBits < bits then .error .exhausted else .ok (bits / 64)
  | leftShape, rightShape =>
    match op with
    | .mult =>
      let (sequence, count) :=
        if leftShape.sequence then (leftShape, rightShape) else (rightShape, leftShape)
      match sequence.sequence, count with
      | true, .int times => .ok (sequence.sizedLen * times.toNat)
      | _, _ => .ok 0
    | .mod =>
      match leftShape with
      | .str template =>
        let widths := runtime.printfWidths template (printfInts look right)
        .ok (template.length + widths / outputRate)
      | .bytes template =>
        let latin := String.ofList (template.map fun byte => Char.ofNat byte.toNat)
        let widths := runtime.printfWidths latin (printfInts look right)
        .ok (template.length + widths / outputRate)
      | _ => .ok 0
    | .add | .sub | .bitOr | .bitAnd | .bitXor =>
      .ok (sizeCost (leftShape.sizedLen + rightShape.sizedLen))
    | _ => .ok 0

/-- `_smaller_deep_cost`: both sides are walked to a doubling bound until one completes. The bound
grows by one at least, so `limit + 1` rounds pass the limit. -/
def smallerDeepCost (left right : Value A) (limit : Nat) : Nat → Nat → Nat
  | 0, bound => min (deepCost look left bound) (deepCost look right bound)
  | rounds + 1, bound =>
    let leftCost := deepCost look left bound
    let rightCost := deepCost look right bound
    if leftCost ≤ bound ∨ rightCost ≤ bound ∨ limit < bound then min leftCost rightCost
    else smallerDeepCost left right limit rounds (bound * 2)

/-- `compare_cost`. -/
def compareCost (op : CmpOperator) (left right : Value A) (limit : Nat) : Nat :=
  let texts := (look left).text && (look right).text
  match op with
  | .is | .isNot => 0
  | .isIn | .notIn =>
    match look right with
    | .dict .. | .seq .set _ | .seq .frozenset _ | .seq .keysView _ | .seq .itemsView _ =>
      deepCost look left limit
    | .seq _ items => min (items.length * deepCost look left limit) (limit + 1)
    | _ => if texts then ((look left).sizedLen + (look right).sizedLen) / 64 else 0
  | _ =>
    if texts then min (look left).sizedLen (look right).sizedLen / 64
    else if (look left).nested && (look right).nested then
      smallerDeepCost look left right limit (limit + 1) 64
    else 0

/-- The number of indices a slice selects of `len` elements, none for a zero step. -/
def sliceLength (len : Nat) (lower upper step : Option Int) : Nat :=
  let stride := step.getD 1
  let clamp (bound low high : Int) := if bound < 0 then max (bound + len) low else min bound high
  if stride = 0 then 0
  else if 0 < stride then
    let start := (lower.map (clamp · 0 len)).getD 0
    let stop := (upper.map (clamp · 0 len)).getD len
    if start < stop then ((stop - start - 1) / stride + 1).toNat else 0
  else
    let start := (lower.map (clamp · (-1) (len - 1))).getD (len - 1)
    let stop := (upper.map (clamp · (-1) (len - 1))).getD (-1)
    if stop < start then ((start - stop - 1) / (-stride) + 1).toNat else 0

/-- `slice_cost`. -/
def sliceCost (container key : Value A) : Nat :=
  match look key with
  | .slice lower upper step =>
    let shape := look container
    let size := sliceLength shape.sizedLen lower upper step
    if ¬ shape.sequence then 0 else if shape.text then size / 64 else size / outputRate
  | _ => 0

end Operators

/-! ## The limit does not show -/

section Limits

variable (look : Value A → Shape A)

theorem le_deepWalk (limit : Nat) :
    ∀ (rounds : Nat) (stack : List (Value A)) (total : Nat),
      total ≤ deepWalk look limit rounds stack total := by
  intro rounds
  induction rounds with
  | zero => exact fun _ total => Nat.le_refl total
  | succ rounds ih =>
    intro stack total
    cases stack with
    | nil => exact Nat.le_refl total
    | cons item stack =>
      have hrest := ih ((look item).children ++ stack) (total + (look item).nodeCost)
      simp only [deepWalk]
      split
      · omega
      · omega

/-- A walk that stays within the lower limit takes the same path under the higher one. -/
theorem deepWalk_eq {less more : Nat} (hle : less ≤ more) :
    ∀ (rounds rounds' : Nat) (stack : List (Value A)) (total : Nat),
      less < rounds + total → more < rounds' + total →
        deepWalk look less rounds stack total ≤ less →
          deepWalk look more rounds' stack total = deepWalk look less rounds stack total := by
  intro rounds
  induction rounds with
  | zero =>
    intro rounds' stack total hrounds _ hwithin
    simp only [deepWalk] at hwithin
    omega
  | succ rounds ih =>
    intro rounds' stack total hrounds hrounds' hwithin
    cases rounds' with
    | zero =>
      have htotal := le_deepWalk look less (rounds + 1) stack total
      omega
    | succ rounds' =>
      cases stack with
      | nil => rfl
      | cons item stack =>
        have hcost := (look item).one_le_nodeCost
        unfold deepWalk at hwithin ⊢
        by_cases hover : less < total + (look item).nodeCost
        · simp only [if_pos hover] at hwithin
          omega
        · simp only [if_neg hover] at hwithin ⊢
          by_cases hmore : more < total + (look item).nodeCost
          · omega
          · simp only [if_neg hmore]
            exact ih rounds' _ _ (by omega) (by omega) hwithin

theorem deepCost_eq (value : Value A) {less more : Nat} (hle : less ≤ more)
    (hwithin : deepCost look value less ≤ less) :
    deepCost look value more = deepCost look value less := by
  unfold deepCost at hwithin ⊢
  split
  · rename_i hnested
    rw [if_pos hnested] at hwithin
    exact deepWalk_eq look hle _ _ _ _ (by omega) (by omega) hwithin
  · rfl

theorem argsCost_eq {less more : Nat} (hle : less ≤ more) :
    ∀ (values : List (Value A)) (total : Nat), argsCost look less values total ≤ less →
      argsCost look more values total = argsCost look less values total := by
  intro values
  induction values with
  | nil => exact fun _ _ => rfl
  | cons value rest ih =>
    intro total hwithin
    unfold argsCost at hwithin ⊢
    by_cases hover : less < total + deepCost look value (less - total)
    · simp only [if_pos hover] at hwithin
      omega
    · have hsame : deepCost look value (more - total) = deepCost look value (less - total) :=
        deepCost_eq look value (by omega) (by omega)
      simp only [if_neg hover] at hwithin ⊢
      rw [hsame, if_neg (by omega)]
      exact ih _ hwithin

theorem keyCost_eq (callee : Callee A) (args : List (Value A)) {less more : Nat}
    (hle : less ≤ more) (hwithin : keyCost look callee args less ≤ less) :
    keyCost look callee args more = keyCost look callee args less := by
  unfold keyCost at hwithin ⊢
  split
  · split
    · rename_i hkey
      rename_i hreceiver
      simp only [hreceiver, if_pos hkey] at hwithin
      exact deepCost_eq look _ hle hwithin
    · rfl
  · rfl

theorem smallerDeepCost_eq (left right : Value A) {less more : Nat} (hle : less ≤ more) :
    ∀ (rounds rounds' bound : Nat), 0 < bound → less < rounds + bound → more < rounds' + bound →
      smallerDeepCost look left right less rounds bound ≤ less →
        smallerDeepCost look left right more rounds' bound =
          smallerDeepCost look left right less rounds bound := by
  intro rounds
  induction rounds with
  | zero =>
    intro rounds' bound _ hrounds hrounds' hwithin
    have hstop : deepCost look left bound ≤ bound ∨ deepCost look right bound ≤ bound := by
      simp only [smallerDeepCost] at hwithin
      omega
    cases rounds' with
    | zero => rfl
    | succ rounds' =>
      simp only [smallerDeepCost]
      rw [if_pos (by tauto)]
  | succ rounds ih =>
    intro rounds' bound hbound hrounds hrounds' hwithin
    by_cases hstop : deepCost look left bound ≤ bound ∨ deepCost look right bound ≤ bound
    · cases rounds' with
      | zero =>
        simp only [smallerDeepCost]
        rw [if_pos (by tauto)]
      | succ rounds' =>
        simp only [smallerDeepCost]
        rw [if_pos (by tauto), if_pos (by tauto)]
    · -- Neither side was walked to its end, so within the limit the bound doubles.
      have hwalk : ¬ less < bound := by
        intro hpast
        simp only [smallerDeepCost] at hwithin
        rw [if_pos (by tauto)] at hwithin
        omega
      cases rounds' with
      | zero => omega
      | succ rounds' =>
        simp only [smallerDeepCost] at hwithin ⊢
        rw [if_neg (by tauto)] at hwithin
        by_cases hmore : more < bound
        · omega
        · rw [if_neg (by tauto), if_neg (by tauto)]
          exact ih rounds' (bound * 2) (by omega) (by omega) (by omega) hwithin

theorem compareCost_eq (op : CmpOperator) (left right : Value A) {less more : Nat}
    (hle : less ≤ more) (hwithin : compareCost look op left right less ≤ less) :
    compareCost look op left right more = compareCost look op left right less := by
  have hmin : ∀ count : Nat, min (count * deepCost look left less) (less + 1) ≤ less →
      min (count * deepCost look left more) (more + 1) =
        min (count * deepCost look left less) (less + 1) := by
    intro count hcount
    rcases Nat.eq_zero_or_pos count with rfl | hpos
    · simp
    · have hle' : count * deepCost look left less ≤ less := by omega
      have hdeep : deepCost look left less ≤ less :=
        Nat.le_trans (Nat.le_mul_of_pos_left _ hpos) hle'
      rw [deepCost_eq look left hle hdeep]
      omega
  have hin : compareCost look .isIn left right less ≤ less →
      compareCost look .isIn left right more = compareCost look .isIn left right less := by
    intro hcost
    unfold compareCost at hcost ⊢
    dsimp only at hcost ⊢
    cases hright : look right with
    | dict => exact deepCost_eq look left hle (by simpa only [hright] using hcost)
    | seq kind items =>
      cases kind <;> simp only [hright] at hcost ⊢ <;>
        first
          | exact deepCost_eq look left hle hcost
          | exact hmin items.length hcost
    | _ => rfl
  have horder : compareCost look .eq left right less ≤ less →
      compareCost look .eq left right more = compareCost look .eq left right less := by
    intro hcost
    unfold compareCost at hcost ⊢
    dsimp only at hcost ⊢
    split
    · rfl
    · rename_i htexts
      rw [if_neg htexts] at hcost
      split
      · rename_i hnested
        rw [if_pos hnested] at hcost
        exact smallerDeepCost_eq look left right hle _ _ 64 (by omega) (by omega) (by omega) hcost
      · rfl
  cases op with
  | is => rfl
  | isNot => rfl
  | isIn => exact hin hwithin
  | notIn => exact hin hwithin
  | eq => exact horder hwithin
  | notEq => exact horder hwithin
  | lt => exact horder hwithin
  | ltE => exact horder hwithin
  | gt => exact horder hwithin
  | gtE => exact horder hwithin

end Limits

end Atlantide.Lang
