import Atlantide.State.Superseded
import Atlantide.State.S3.OutputFence

/-! # Fenced output writes

Stack outputs have no lock of their own: the postgres backend judges their write by the lease's nodes
in the stacks written, as it judges a write of those nodes, the memory and sqlite backends do not
judge it, and the journal checks those nodes' heads with the commit. -/

namespace Atlantide

open Interleaving History Tables

/-! ## By the holds -/

namespace Tables

/-- An output write under a lease some node of which, in a stack written, another owner has acquired
since is refused, and the outputs stay as they are. -/
def OutputsFenced (kind : HoldStore) (tables : Tables) (now : Int) (call : StateCall) : Prop :=
  ∀ lease outputs remove, call = .setOutputs (some lease) outputs remove →
    lease ∈ tables.granted → tables.Superseded lease (fencedNodes lease outputs remove) →
    (∃ refusal, tables.setOutputs kind now (some lease) outputs remove = .error refusal) ∧
      (tables.after kind now call).outputs = tables.outputs

/-- Where a node of the lease was acquired anew, the backend judges output writes, and some hold that
is left over the lease's nodes in the stacks written bars it. -/
def OutputHoldsTell (kind : HoldStore) (tables : Tables) (now : Int) (call : StateCall) : Prop :=
  ∀ lease outputs remove, call = .setOutputs (some lease) outputs remove →
    lease ∈ tables.granted → tables.Superseded lease (fencedNodes lease outputs remove) →
    kind ≠ .memory ∧ kind ≠ .sqlite ∧
      ∃ node ∈ fencedNodes lease outputs remove, tables.Bars now lease node

end Tables

theorem Granted.outputsFenced_iff {tables : Tables} (hgranted : Granted tables) (kind : HoldStore)
    (now : Int) (call : StateCall) :
    OutputsFenced kind tables now call ↔ OutputHoldsTell kind tables now call := by
  refine forall₃_congr fun lease outputs remove => ?_
  refine imp_congr_right ?_
  rintro rfl
  refine forall_congr' fun hmem => imp_congr_right fun _ => ?_
  rw [← hgranted.fenceViolation_iff hmem]
  cases kind with
  | memory => simp [Tables.setOutputs]
  | sqlite => simp [Tables.setOutputs]
  | postgres skewMargin =>
    simp only [Tables.setOutputs, Tables.after, Tables.perform]
    cases fenceViolation (some lease) tables.holds now (fencedNodes lease outputs remove) <;> simp

/-! ## By the heads -/

/-- On the journal, in every run: a call that commits outputs under a lease, one of whose nodes a newer
lease was granted before the call, commits none of that node's stack, and ends well only if it had
found nothing to write there. -/
def JournalFencesOutputs (ctx : S3Context) : Prop :=
  ∀ (acts more : List (System.Act Tid Choice Surroundings Call)) (config config' : Backends) (tid : Tid)
    (choice : Choice) (outputs : Dict String Value) (remove : List String) (lease : Lease)
    (node : String) (newer : Nat),
    (backends ctx).run acts (System.initial {}) = some config →
    (config.world.memory tid.process).lease = some lease → node ∈ lease.scope →
    Raised config.world.history node newer → lease.fence < newer →
    (backends ctx).run (.start tid (.setOutputs outputs remove) :: .serve tid choice :: more) config =
      some config' →
    (∀ call, .start tid call ∉ more) →
    ∃ moments, config'.world.history = moments ++ config.world.history ∧
      (∀ moment ∈ moments, moment.task = tid → ∀ update, moment.event = .committed update →
        update.item ≠ ⟨.output, stackOf node⟩) ∧
      ∀ call result, config'.tasks tid = some ⟨call, .ret result⟩ →
        ∀ moment ∈ moments, moment.task = tid → ∀ key entry, moment.event = .stored key entry →
          entry.item ≠ ⟨.output, stackOf node⟩

/-- **Where output writes are fenced.** Over every history the tables refuse the output writes of
overtaken leases exactly as long as the backend judges them and the holds still tell; the journal
always does. -/
theorem outputs_fenced_iff (ctx : S3Context) :
    (∀ kind calls, Throughout kind (OutputsFenced kind) calls {} ↔
      Throughout kind (OutputHoldsTell kind) calls {}) ∧ JournalFencesOutputs ctx := by
  constructor
  · intro kind calls
    exact throughout_congr (fun _ now call hgranted => hgranted.outputsFenced_iff kind now call) calls
      granted_initial
  · intro acts more config config' tid choice outputs remove lease node newer hrun hlease hnode hraised
      hlt hcall hsame
    exact outputs_spared ctx hrun hlease hnode hraised hlt hcall hsame

/-- A run's lease lapses and its node is taken over; the run then retracts an output of the stack. -/
def overtakenOutputs : List (Int × StateCall) :=
  [(0, .acquire "first" 10 ["net:vpc"]), (50, .acquire "second" 10 ["net:vpc"]),
    (56, .setOutputs (some ⟨"first", 10, ["net:vpc"], 1⟩) ∅ ["net:url"])]

theorem not_outputs_fenced :
    ¬Throughout .memory (OutputsFenced .memory) overtakenOutputs {} ∧
      ¬Throughout .sqlite (OutputsFenced .sqlite) overtakenOutputs {} := by
  have hovertaken : ∀ kind, kind = .memory ∨ kind = .sqlite → ∀ tables : Tables,
      tables.granted = [⟨"second", 60, ["net:vpc"], 2⟩, ⟨"first", 10, ["net:vpc"], 1⟩] →
      ¬OutputsFenced kind tables 56
        (.setOutputs (some ⟨"first", 10, ["net:vpc"], 1⟩) ∅ ["net:url"]) := by
    intro kind hkind tables hgranted hfenced
    obtain ⟨⟨refusal, hrefused⟩, -⟩ := hfenced _ _ _ rfl (by simp [hgranted])
      ⟨"net:vpc", by decide, _, by rw [hgranted]; exact List.mem_cons_self .., by decide, by decide,
        by decide⟩
    rcases hkind with rfl | rfl
    · cases hrefused
    · cases hrefused
  constructor
  · rintro ⟨-, -, hfenced, -⟩
    exact hovertaken _ (.inl rfl) _ rfl hfenced
  · rintro ⟨-, -, hfenced, -⟩
    exact hovertaken _ (.inr rfl) _ rfl hfenced

end Atlantide
