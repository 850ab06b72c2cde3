import HEDB.Foundations.Simulation

/-!
# The hotfix server

A DBA asks `hotfix-server.py` for an action of a published list, with a value. Each action has a
template: a fixed command, an SQL command that takes the value as it is, or a command whose value
must be a number between two bounds.

The server picks the template by the position of the action in the list. In the list a comma is
missing after `"none"`, so that Python joins the first two strings and every action stands one
position earlier than the templates are written for. No action runs its own template, and a request
is confined to what the action is for exactly when nothing is run for it and no exception is raised
(`confined_iff`).
-/

namespace HEDB

namespace Hotfix

/-- The exceptions of Python that a request can raise. -/
inductive Exc
  | indexError | valueError
  deriving DecidableEq

/-- What a request comes to: a shell command, a text that is returned, no value, or an exception. -/
inductive Outcome
  | ran (command : String)
  | text (s : String)
  | noValue
  | raised (e : Exc)
  deriving DecidableEq

/-- The list `actions`. The first string is two adjacent literals. -/
def actions : List String := [
  "none" ++
  "os_service_restart",
  "os_hugepage_update [value] between 64 and 1024",
  "os_coredump_remove",
  "db_space_reclaim [table]",
  "db_table_reindex [table]",
  "db_query_cancel [process]",
  "db_query_kill [process]",
  "db_shared_buffer_update [value] between 64 and 2048 MB (requires restart)",
  "db_work_mem_update [value] between 1 and 16 MB (requires restart)",
  "db_maintenance_work_mem_update [value] between 16 and 128 MB (requires restart)",
  "db_max_connections_update [value] between 10 and 500 (requires restart)",
  "db_statement_timeout_update [value] between 1 and 10800000 (requires restart)"]

/-! ## Templates -/

/-- A template: a fixed command, or one into which the value is spliced, checked against bounds or
not. -/
inductive Template
  | fixed (command : String)
  | unchecked (before after : String)
  | bounded (lo hi : ℤ) (before after invalid : String)

namespace Template

/-- The command of a template. -/
def command : Template → String → String
  | fixed command, _ => command
  | unchecked before after, value => before ++ value ++ after
  | bounded _ _ before after _, value => before ++ value ++ after

/-- The branch of a template. `int` is Python's `int` on strings, which may raise a `ValueError`. -/
def run (int : String → Option ℤ) (t : Template) (value : String) : Outcome :=
  match t with
  | fixed _ => .ran (t.command value)
  | unchecked _ _ => .ran (t.command value)
  | bounded lo hi _ _ invalid =>
    match int value with
    | none => .raised .valueError
    | some i => if lo ≤ i ∧ i ≤ hi then .ran (t.command value) else .text (invalid ++ value)

end Template

section Templates

variable (cwd : String)

def serviceRestart : Template := .fixed (cwd ++ "/" ++ "service_restart")

def hugepageUpdate : Template :=
  .bounded 64 1024 (cwd ++ "/" ++ "hugepage_update ") "" "os_hugepage_update [value] invalid: "

def coredumpRemove : Template := .fixed "rm /var/crash/*.crash"

def spaceReclaim : Template := .unchecked "psql -c 'VACUUM FULL " ";'"

def tableReindex : Template := .unchecked "psql -c 'REINDEX INDEX " ";'"

def queryCancel : Template := .unchecked "psql -c 'SELECT pg_cancel_backend(" ");'"

def queryKill : Template := .unchecked "psql -c 'SELECT pg_terminate_backend(" ");'"

def sharedBufferUpdate : Template :=
  .bounded 64 2048 "psql -c 'ALTER SYSTEM SET shared_buffers TO \"" "MB\";'"
    "db_shared_buffers_update [value] invalid: "

def workMemUpdate : Template :=
  .bounded 1 16 "psql -c 'ALTER SYSTEM SET work_mem TO \"" "MB\";'"
    "db_work_mem_update [value] invalid: "

def maintenanceWorkMemUpdate : Template :=
  .bounded 16 128 "psql -c 'ALTER SYSTEM SET maintenance_work_mem TO \"" "MB\";'"
    "db_maintenance_work_mem_update [value] invalid: "

def maxConnectionsUpdate : Template :=
  .bounded 10 500 "psql -c 'ALTER SYSTEM SET max_connections TO " ";'"
    "db_max_connections_update [value] invalid: "

def statementTimeoutUpdate : Template :=
  .bounded 1 10800000 "psql -c 'ALTER SYSTEM SET statement_timeout TO " ";'"
    "db_statement_timeout_update [value] invalid: "

/-- The templates, in the order of the actions that they are for. -/
def templates : List Template :=
  [serviceRestart cwd, hugepageUpdate cwd, coredumpRemove, spaceReclaim, tableReindex, queryCancel,
    queryKill, sharedBufferUpdate, workMemUpdate, maintenanceWorkMemUpdate, maxConnectionsUpdate,
    statementTimeoutUpdate]

variable (int : String → Option ℤ) (action value : String)

/-- The branches `elif action == actions[i]`, from position `i` on. -/
def dispatch : ℕ → List Template → Outcome
  | _, [] => .noValue
  | i, t :: ts =>
    match actions[i]? with
    | none => .raised .indexError
    | some a => if action = a then t.run int value else dispatch (i + 1) ts

/-- `Maintenance_Template`. The first template is for `actions[1]`. -/
def maintenanceTemplate : Outcome := dispatch int action value 1 (templates cwd)

/-! ## Confinement -/

/-- The template of an action by its name. -/
def named : Option Template := (actions.zip (templates cwd)).lookup action

/-- The value is a decimal literal. -/
def IsNumeral : Prop := value ≠ "" ∧ ∀ c ∈ value.toList, c.isDigit

/-- The value is one word of letters, digits and underscores. -/
def IsWord : Prop := value ≠ "" ∧ ∀ c ∈ value.toList, c.isAlphanum ∨ c = '_'

/-- The value is a number within the bounds. -/
def Within (lo hi : ℤ) : Prop := ∃ i, int value = some i ∧ lo ≤ i ∧ i ≤ hi

/-- The value is a number, but not within the bounds. -/
def Outside (lo hi : ℤ) : Prop := ∃ i, int value = some i ∧ ¬ (lo ≤ i ∧ i ≤ hi)

/-- The values that a template may be run with. -/
def Template.Allows : Template → Prop
  | .fixed _ => True
  | .unchecked _ _ => IsWord value
  | .bounded lo hi _ _ _ => IsNumeral value ∧ Within int value lo hi

/-- The values that a template must refuse. -/
def Template.Refuses : Template → Prop
  | .fixed _ => False
  | .unchecked _ _ => False
  | .bounded lo hi _ _ _ => ¬ Within int value lo hi

/-- **A request is confined**: a command is run only if it is that of the action, with a value that
it may have, and a text is returned when the action is unknown or the value is out of range. -/
def Confined : Prop :=
  (∀ command, maintenanceTemplate cwd int action value = .ran command →
    ∃ t, named cwd action = some t ∧ t.command value = command ∧ t.Allows int value) ∧
  ((∀ t, named cwd action = some t → t.Refuses int value) →
    ∃ s, maintenanceTemplate cwd int action value = .text s)

/-- The requests for which nothing is run: the first action, and the actions that are one position
behind a template with bounds, with a value out of these bounds. -/
def NothingRun : Prop :=
  actions[0]? = some action ∨
  actions[2]? = some action ∧ ¬ Within int value 64 1024 ∨
  actions[8]? = some action ∧ Outside int value 64 2048 ∨
  actions[9]? = some action ∧ Outside int value 1 16 ∨
  actions[10]? = some action ∧ Outside int value 16 128 ∨
  actions[11]? = some action ∧ Outside int value 10 500

end Templates

variable {cwd : String} {int : String → Option ℤ} {action value : String}

/-! ## Which branch is taken -/

theorem nodup_actions : actions.Nodup := by decide

/-- An action that is at none of the positions: the last position is out of range. -/
theorem dispatch_of_forall_ne {i : ℕ} {ts : List Template} (hi : i ≤ actions.length)
    (hts : actions.length < i + ts.length) (h : ∀ j, i ≤ j → actions[j]? ≠ some action) :
    dispatch int action value i ts = .raised .indexError := by
  induction ts generalizing i with
  | nil =>
    rw [List.length_nil] at hts
    omega
  | cons t ts ih =>
    cases ha : actions[i]? with
    | none => rw [dispatch, ha]
    | some a =>
      have hne : action ≠ a := fun heq => h i le_rfl (heq ▸ ha)
      have hlt := (List.getElem?_eq_some_iff.1 ha).1
      rw [dispatch, ha]
      refine (if_neg hne).trans (ih hlt ?_ fun j hj => h j (by omega))
      rw [List.length_cons] at hts
      omega

/-- The branch of the action at a position. -/
theorem dispatch_eq {i j : ℕ} {ts : List Template} {t : Template}
    (ha : actions[i + j]? = some action)
    (ht : ts[j]? = some t) : dispatch int action value i ts = t.run int value := by
  induction j generalizing i ts with
  | zero =>
    cases ts with
    | nil => cases ht
    | cons t' ts =>
      cases ht
      rw [dispatch, show actions[i]? = some action from ha]
      exact if_pos rfl
  | succ j ih =>
    cases ts with
    | nil => cases ht
    | cons t' ts =>
      obtain ⟨hlt, hget⟩ := List.getElem?_eq_some_iff.1 ha
      have hi : i < actions.length := by omega
      have hne : action ≠ actions[i] := by
        intro heq
        have := nodup_actions.getElem_inj_iff.1 (hget.trans heq)
        omega
      rw [dispatch, List.getElem?_eq_getElem hi]
      refine (if_neg hne).trans (ih ?_ ht)
      rwa [Nat.add_right_comm, Nat.add_assoc]

/-- The action at a position runs the template of the position before. -/
theorem maintenanceTemplate_eq {k : ℕ} {t : Template} (ha : actions[k + 1]? = some action)
    (ht : (templates cwd)[k]? = some t) :
    maintenanceTemplate cwd int action value = t.run int value :=
  dispatch_eq (by rwa [Nat.add_comm]) ht

/-- A request that runs the template of another action. -/
theorem confined_of_run {t t' : Template}
    (hrun : maintenanceTemplate cwd int action value = t'.run int value)
    (hnamed : named cwd action = some t) (hne : t.command value ≠ t'.command value) :
    Confined cwd int action value ↔ ∃ lo hi before after invalid,
      t' = .bounded lo hi before after invalid ∧
        (Outside int value lo hi ∨ int value = none ∧ ¬ t.Refuses int value) := by
  have hran : t'.run int value = .ran (t'.command value) → ¬ Confined cwd int action value := by
    intro h hconf
    obtain ⟨u, hu, hcommand, -⟩ := hconf.1 _ (hrun.trans h)
    rw [hnamed] at hu
    cases hu
    exact hne hcommand
  cases t' with
  | fixed command => simpa using hran rfl
  | unchecked before after => simpa using hran rfl
  | bounded lo hi before after invalid =>
    have hiff : Confined cwd int action value ↔
        Outside int value lo hi ∨ int value = none ∧ ¬ t.Refuses int value := by
      cases hint : int value with
      | none =>
        have hraised : maintenanceTemplate cwd int action value = .raised .valueError := by
          rw [hrun, Template.run, hint]
        simp [Confined, Outside, hraised, hint, hnamed]
      | some i =>
        by_cases hin : lo ≤ i ∧ i ≤ hi
        · have := hran (by rw [Template.run, hint]; exact if_pos hin)
          simp [Outside, hint, hin, this]
        · have htext : maintenanceTemplate cwd int action value = .text (invalid ++ value) := by
            rw [hrun, Template.run, hint]
            exact if_neg hin
          have hout : Outside int value lo hi := ⟨i, hint, hin⟩
          simp [Confined, htext, hout]
    rw [hiff]
    simp

/-- A request for which an exception is raised. -/
theorem confined_of_raised {e : Exc} (h : maintenanceTemplate cwd int action value = .raised e) :
    Confined cwd int action value ↔ ∃ t, named cwd action = some t ∧ ¬ t.Refuses int value := by
  simp [Confined, h]

/-! ## The commands of different templates differ -/

theorem command_coredumpRemove_ne :
    coredumpRemove.command value ≠ (hugepageUpdate cwd).command value := by
  intro h
  have hmem : 'g' ∈ ((hugepageUpdate cwd).command value).toList := by
    simp [hugepageUpdate, Template.command]
  rw [← h] at hmem
  have hnot : 'g' ∉ "rm /var/crash/*.crash".toList := by decide
  exact hnot hmem

theorem command_ne {k : ℕ} {t t' : Template} (ht : (templates cwd)[k + 1]? = some t)
    (ht' : (templates cwd)[k]? = some t') : t.command value ≠ t'.command value := by
  have hk : k < 11 := by
    have hlt : k + 1 < 12 := (List.getElem?_eq_some_iff.1 ht).1
    omega
  rcases eq_or_ne k 1 with rfl | hk1
  · cases ht
    cases ht'
    exact command_coredumpRemove_ne
  · intro h
    have hchars := congrArg String.toList h
    interval_cases k <;> cases ht <;> cases ht' <;>
      simp [Template.command, serviceRestart, hugepageUpdate, coredumpRemove, spaceReclaim,
        tableReindex, queryCancel, queryKill, sharedBufferUpdate, workMemUpdate,
        maintenanceWorkMemUpdate, maxConnectionsUpdate, statementTimeoutUpdate] at hchars hk1

/-! ## Names -/

theorem named_eq {k : ℕ} {t : Template} (ha : actions[k]? = some action)
    (ht : (templates cwd)[k]? = some t) : named cwd action = some t :=
  lookup_zip nodup_actions ha ht

theorem mem_of_named {t : Template} (h : named cwd action = some t) :
    ∃ k : ℕ, actions[k]? = some action := by
  obtain ⟨l₁, l₂, hzip, -⟩ := List.lookup_eq_some_iff.1 h
  have hmem : (action, t) ∈ actions.zip (templates cwd) := by
    rw [hzip]
    simp
  exact List.mem_iff_getElem?.1 (List.of_mem_zip hmem).1

/-- An action stands at one position. -/
theorem getElem?_actions_iff {j k : ℕ} (hk : actions[k]? = some action) :
    actions[j]? = some action ↔ j = k := by
  constructor
  · intro hj
    obtain ⟨hlt, hget⟩ := List.getElem?_eq_some_iff.1 hj
    obtain ⟨hlt', hget'⟩ := List.getElem?_eq_some_iff.1 hk
    exact nodup_actions.getElem_inj_iff.1 (hget.trans hget'.symm)
  · rintro rfl
    exact hk

theorem not_within_iff {lo hi : ℤ} :
    ¬ Within int value lo hi ↔ int value = none ∨ Outside int value lo hi := by
  cases hint : int value <;> simp [Within, Outside, hint]

/-! ## The requests that are confined -/

/-- **A request is confined exactly when nothing is run for it.** -/
theorem confined_iff (cwd : String) (int : String → Option ℤ) (action value : String) :
    Confined cwd int action value ↔ NothingRun int action value := by
  by_cases hmem : ∃ k : ℕ, actions[k]? = some action
  · obtain ⟨k, hk⟩ := hmem
    have hlt : k < 12 := (List.getElem?_eq_some_iff.1 hk).1
    have hlt' : k < (templates cwd).length := hlt
    have ht : (templates cwd)[k]? = some (templates cwd)[k] := List.getElem?_eq_getElem hlt'
    simp only [NothingRun, getElem?_actions_iff hk]
    cases k with
    | zero =>
      have hraised : maintenanceTemplate cwd int action value = .raised .indexError := by
        refine dispatch_of_forall_ne (by decide) (Nat.lt_succ_self 12) fun j hj h => ?_
        rw [getElem?_actions_iff hk] at h
        omega
      rw [confined_of_raised hraised]
      refine iff_of_true ⟨_, named_eq hk ht, ?_⟩ (.inl rfl)
      exact id
    | succ k =>
      have ht' : (templates cwd)[k]? = some (templates cwd)[k] :=
        List.getElem?_eq_getElem (by omega)
      rw [confined_of_run (maintenanceTemplate_eq hk ht') (named_eq hk ht) (command_ne ht ht')]
      have hk11 : k < 11 := by omega
      -- A template with bounds refuses what is no number, and so does the next one if it has
      -- bounds.
      interval_cases k <;>
        simp [templates, serviceRestart, hugepageUpdate, coredumpRemove, spaceReclaim,
        tableReindex, queryCancel, queryKill, sharedBufferUpdate, workMemUpdate,
        maintenanceWorkMemUpdate, maxConnectionsUpdate, statementTimeoutUpdate, Template.Refuses,
        not_within_iff, or_comm]
      all_goals exact fun hnone hsome => absurd hnone hsome
  · have hraised : maintenanceTemplate cwd int action value = .raised .indexError :=
      dispatch_of_forall_ne (by decide) (Nat.lt_succ_self 12) fun j _ h => hmem ⟨j, h⟩
    rw [confined_of_raised hraised]
    refine iff_of_false (fun ⟨t, ht, _⟩ => hmem (mem_of_named ht)) ?_
    rintro (h | ⟨h, -⟩ | ⟨h, -⟩ | ⟨h, -⟩ | ⟨h, -⟩ | ⟨h, -⟩) <;> exact hmem ⟨_, h⟩

/-- A DBA who asks to reclaim the space of a table removes the core dumps, and one who asks to
reindex a table can leave the quotes of the SQL command. -/
theorem space_reclaim_removes_coredumps :
    maintenanceTemplate "/srv" String.toInt? "db_space_reclaim [table]" "accounts" =
      .ran "rm /var/crash/*.crash" ∧
    maintenanceTemplate "/srv" String.toInt? "db_table_reindex [table]" "t;' ; id '" =
      .ran "psql -c 'VACUUM FULL t;' ; id ';'" ∧
    ¬ Confined "/srv" String.toInt? "db_space_reclaim [table]" "accounts" := by
  have hrun : maintenanceTemplate "/srv" String.toInt? "db_space_reclaim [table]" "accounts" =
      .ran "rm /var/crash/*.crash" := rfl
  refine ⟨hrun, by decide, fun hconf => ?_⟩
  obtain ⟨t, ht, hcommand, -⟩ := hconf.1 _ hrun
  have hnamed : named "/srv" "db_space_reclaim [table]" = some spaceReclaim := rfl
  rw [hnamed] at ht
  cases ht
  revert hcommand
  decide

end Hotfix

end HEDB
