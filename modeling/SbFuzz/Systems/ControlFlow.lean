import Mathlib.Data.List.Basic
import Mathlib.Data.List.Nodup
import Mathlib.Logic.Relation
import Mathlib.Logic.Function.Basic

/-! Control-flow graphs of instructions that compute bits, and the replacement of one
instruction by a region of blocks whose results a phi node joins. -/

set_option autoImplicit false

namespace SbFuzz.Systems.ControlFlow

abbrev Label := Nat

abbrev Reg := Nat

abbrev Env := Reg → Bool

inductive Source where
  | const (value : Bool)
  | reg (r : Reg)
  deriving DecidableEq

structure Phi where
  result : Reg
  incoming : List (Label × Source)

inductive Exit where
  | goto (dest : Label)
  | branch (cond : Reg) (yes no : Label)
  | ret

/-- A block. Its instructions read no registers: the operands of the instruction are
part of `Op`. -/
structure Node (Op : Type) where
  phi : Option Phi
  code : List (Reg × Op)
  exit : Exit

/-- The label of a block is its place in the list; the first block is the entry. -/
structure Graph (Op : Type) where
  nodes : List (Node Op)
  freshReg : Reg

section

variable {Op : Type} (eval : Op → Bool)

/-! ## Execution -/

def Source.get (env : Env) : Source → Bool
  | .const value => value
  | .reg r => env r

def exec (code : List (Reg × Op)) (env : Env) : Env :=
  code.foldl (fun env inst => Function.update env inst.1 (eval inst.2)) env

def valueFrom (incoming : List (Label × Source)) (pred : Label) (env : Env) : Option Bool :=
  (incoming.lookup pred).map fun source => source.get env

def Phi.enter (phi : Phi) (pred : Option Label) (env : Env) : Option Env :=
  (pred.bind fun pred => valueFrom phi.incoming pred env).map (Function.update env phi.result)

def Node.run (node : Node Op) (pred : Option Label) (env : Env) : Option Env :=
  (node.phi.elim (some env) fun phi => phi.enter pred env).map (exec eval node.code)

def Exit.next (env : Env) : Exit → Option Label
  | .goto dest => some dest
  | .branch cond yes no => some (if env cond then yes else no)
  | .ret => none

/-- Control is about to enter `block`, from `pred` unless it is the entry. -/
structure Config where
  block : Label
  pred : Option Label
  env : Env

def Graph.step (g : Graph Op) (config : Config) : Option Config :=
  g.nodes[config.block]?.bind fun node =>
    (node.run eval config.pred config.env).bind fun env =>
      (node.exit.next env).map fun next => ⟨next, some config.block, env⟩

def Graph.final (g : Graph Op) (config : Config) : Option Env :=
  g.nodes[config.block]?.bind fun node =>
    (node.run eval config.pred config.env).bind fun env =>
      if node.exit.next env = none then some env else none

def Graph.Steps (g : Graph Op) : Config → Config → Prop :=
  Relation.ReflTransGen fun one two => g.step eval one = some two

/-- A complete run from `config`; the registers hold `env` at its end. -/
def Graph.Runs (g : Graph Op) (config : Config) (env : Env) : Prop :=
  ∃ last, g.Steps eval config last ∧ g.final eval last = some env

def Config.entry (env : Env) : Config := ⟨0, none, env⟩

@[simp] theorem valueFrom_cons (label : Label) (source : Source) (rest : List (Label × Source))
    (pred : Label) (env : Env) : valueFrom ((label, source) :: rest) pred env =
      if pred = label then some (source.get env) else valueFrom rest pred env := by
  rw [valueFrom, List.lookup_cons]
  by_cases here : pred = label
  · simp [here]
  · simp only [beq_false_of_ne here, if_neg here, valueFrom]

variable {eval}

theorem Graph.step_eq {g : Graph Op} {config : Config} {node : Node Op} {env : Env} {next : Label}
    (found : g.nodes[config.block]? = some node)
    (ran : node.run eval config.pred config.env = some env)
    (left : node.exit.next env = some next) :
    g.step eval config = some ⟨next, some config.block, env⟩ := by
  rw [Graph.step, found, Option.bind_some, ran, Option.bind_some, left, Option.map_some]

theorem Graph.step_cases {g : Graph Op} {config after : Config}
    (stepped : g.step eval config = some after) :
    ∃ node env next, g.nodes[config.block]? = some node ∧
      node.run eval config.pred config.env = some env ∧ node.exit.next env = some next ∧
      after = ⟨next, some config.block, env⟩ := by
  obtain ⟨node, found, stepped⟩ := Option.bind_eq_some_iff.mp stepped
  obtain ⟨env, ran, stepped⟩ := Option.bind_eq_some_iff.mp stepped
  obtain ⟨next, left, same⟩ := Option.map_eq_some_iff.mp stepped
  exact ⟨node, env, next, found, ran, left, same.symm⟩

theorem Graph.final_eq {g : Graph Op} {config : Config} {node : Node Op} {env : Env}
    (found : g.nodes[config.block]? = some node)
    (ran : node.run eval config.pred config.env = some env)
    (left : node.exit.next env = none) : g.final eval config = some env := by
  rw [Graph.final, found, Option.bind_some, ran, Option.bind_some, if_pos left]

theorem Graph.final_cases {g : Graph Op} {config : Config} {env : Env}
    (ended : g.final eval config = some env) :
    ∃ node, g.nodes[config.block]? = some node ∧
      node.run eval config.pred config.env = some env ∧ node.exit.next env = none := by
  obtain ⟨node, found, ended⟩ := Option.bind_eq_some_iff.mp ended
  obtain ⟨after, ran, ended⟩ := Option.bind_eq_some_iff.mp ended
  split at ended
  · next left =>
    obtain rfl := Option.some.inj ended
    exact ⟨node, found, ran, left⟩
  · cases ended

theorem Graph.step_of_final {g : Graph Op} {config : Config} {env : Env}
    (ended : g.final eval config = some env) : g.step eval config = none := by
  obtain ⟨node, found, ran, left⟩ := Graph.final_cases ended
  rw [Graph.step, found, Option.bind_some, ran, Option.bind_some, left, Option.map_none]

/-- Execution is deterministic. -/
theorem Graph.Runs.unique {g : Graph Op} {config : Config} {one two : Env}
    (first : g.Runs eval config one) (second : g.Runs eval config two) : one = two := by
  obtain ⟨last, steps, ended⟩ := first
  obtain ⟨last', steps', ended'⟩ := second
  have rightUnique : Relator.RightUnique fun c c' => g.step eval c = some c' :=
    fun c c' c'' same same' => Option.some.inj (same.symm.trans same')
  have stuck : ∀ {c c' : Config} {env : Env}, g.final eval c = some env → g.Steps eval c c' →
      c' = c := by
    intro c c' env ended steps
    rcases steps.cases_head with same | ⟨next, stepped, _⟩
    · exact same.symm
    · rw [Graph.step_of_final ended] at stepped
      cases stepped
  rcases Relation.ReflTransGen.total_of_right_unique rightUnique steps steps' with more | more
  · rw [stuck ended more] at ended'
    exact Option.some.inj (ended.symm.trans ended')
  · rw [stuck ended' more] at ended
    exact Option.some.inj (ended.symm.trans ended')

theorem exec_congr {eval' : Op → Bool} {code : List (Reg × Op)}
    (same : ∀ inst ∈ code, eval inst.2 = eval' inst.2) (env : Env) :
    exec eval code env = exec eval' code env := by
  induction code generalizing env with
  | nil => rfl
  | cons inst code ih =>
      obtain ⟨first, later⟩ := List.forall_mem_cons.mp same
      rw [exec, exec, List.foldl_cons, List.foldl_cons, first]
      exact ih later _

/-- Only what the instructions of the graph evaluate to matters. -/
theorem Graph.Runs.congr {g : Graph Op} {eval' : Op → Bool} {config : Config} {env : Env}
    (same : ∀ node ∈ g.nodes, ∀ inst ∈ node.code, eval inst.2 = eval' inst.2)
    (runs : g.Runs eval config env) : g.Runs eval' config env := by
  have ran : ∀ node ∈ g.nodes, ∀ pred env, node.run eval pred env = node.run eval' pred env := by
    intro node member pred env
    rw [Node.run, Node.run, funext (exec_congr (same node member))]
  have stepSame : ∀ config, g.step eval config = g.step eval' config := by
    intro config
    refine Option.bind_congr fun node found => ?_
    rw [ran node (List.mem_of_getElem? found)]
  have finalSame : ∀ config, g.final eval config = g.final eval' config := by
    intro config
    refine Option.bind_congr fun node found => ?_
    rw [ran node (List.mem_of_getElem? found)]
  obtain ⟨last, steps, ended⟩ := runs
  refine ⟨last, ?_, (finalSame last).symm.trans ended⟩
  unfold Graph.Steps at steps ⊢
  simpa only [stepSame] using steps

theorem Graph.steps_plain {g : Graph Op} {label next : Label} {pred : Option Label} {env : Env}
    {code : List (Reg × Op)} {exit : Exit} {last : Config}
    (found : g.nodes[label]? = some ⟨none, code, exit⟩)
    (left : exit.next (exec eval code env) = some next)
    (rest : g.Steps eval ⟨next, some label, exec eval code env⟩ last) :
    g.Steps eval ⟨label, pred, env⟩ last :=
  Relation.ReflTransGen.head (@Graph.step_eq _ eval g ⟨label, pred, env⟩ _ _ _ found rfl left) rest

theorem Graph.steps_phi {g : Graph Op} {label pred next : Label} {env : Env} {phi : Phi}
    {code : List (Reg × Op)} {exit : Exit} {last : Config} (value : Bool)
    (found : g.nodes[label]? = some ⟨some phi, code, exit⟩)
    (received : valueFrom phi.incoming pred env = some value)
    (left : exit.next (exec eval code (Function.update env phi.result value)) = some next)
    (rest : g.Steps eval ⟨next, some label, exec eval code (Function.update env phi.result value)⟩
      last) : g.Steps eval ⟨label, some pred, env⟩ last := by
  have ran : Node.run eval ⟨some phi, code, exit⟩ (some pred) env =
      some (exec eval code (Function.update env phi.result value)) := by
    simp only [Node.run, Phi.enter, Option.elim_some, Option.bind_some, received, Option.map_some]
  exact Relation.ReflTransGen.head
    (@Graph.step_eq _ eval g ⟨label, some pred, env⟩ _ _ _ found ran left) rest

/-! ## Replacing an instruction -/

/-- What comes in the place of an instruction: code and the branch at the end of the
block before it, further blocks, and where its value comes from. -/
structure Region (Op : Type) where
  code : List (Reg × Op)
  exit : Exit
  nodes : List (Node Op)
  incoming : List (Label × Source)
  regs : Nat

/-- The block that ended in the branch of `block` is `stop` from now on. -/
def redirect (block stop label : Label) : Label := if label = block then stop else label

def Phi.redirect (block stop : Label) (phi : Phi) : Phi :=
  { phi with incoming := phi.incoming.map fun entry =>
      (ControlFlow.redirect block stop entry.1, entry.2) }

def Node.redirect (block stop : Label) (node : Node Op) : Node Op :=
  { node with phi := node.phi.map (Phi.redirect block stop) }

def Node.before (node : Node Op) (c : Reg) : List (Reg × Op) :=
  node.code.takeWhile fun inst => inst.1 ≠ c

def Node.after (node : Node Op) (c : Reg) : List (Reg × Op) :=
  (node.code.dropWhile fun inst => inst.1 ≠ c).tail

/-- The block that an instruction is in. -/
def Graph.parent (g : Graph Op) (c : Reg) : Option Label :=
  g.nodes.findIdx? fun node => node.code.any fun inst => inst.1 = c

def Graph.inst (g : Graph Op) (c : Reg) : Option Op :=
  (g.nodes.flatMap Node.code).lookup c

/-- The block is split at the instruction, and a phi node in the new block takes the
instruction's register. -/
def Graph.expand (g : Graph Op) (block : Label) (c : Reg) (region : Region Op) : Graph Op :=
  match g.nodes[block]? with
  | none => g
  | some node =>
      let stop := g.nodes.length
      { nodes := (g.nodes.map (Node.redirect block stop)).set block
            ⟨(node.redirect block stop).phi, node.before c ++ region.code, region.exit⟩ ++
          ⟨some ⟨c, region.incoming⟩, node.after c, node.exit⟩ :: region.nodes
        freshReg := g.freshReg + region.regs }

/-! ## Registers in use -/

def Source.Below (regs : Nat) : Source → Prop
  | .const _ => True
  | .reg r => r < regs

def Exit.Below (regs : Nat) : Exit → Prop
  | .branch cond _ _ => cond < regs
  | _ => True

structure Node.Below (labels regs : Nat) (node : Node Op) : Prop where
  phi : ∀ phi ∈ node.phi, phi.result < regs ∧
    ∀ entry ∈ phi.incoming, entry.1 < labels ∧ entry.2.Below regs
  code : ∀ inst ∈ node.code, inst.1 < regs
  exit : node.exit.Below regs

/-- Registers are made before they are used, and phi nodes name blocks of the graph. -/
def Graph.WellFormed (g : Graph Op) : Prop :=
  ∀ node ∈ g.nodes, node.Below g.nodes.length g.freshReg

/-- The first `regs` registers hold the same. -/
def Agree (regs : Nat) (env env' : Env) : Prop := ∀ r < regs, env r = env' r

variable {regs block stop : Nat} {env env' : Env}

theorem Agree.trans {env'' : Env} (one : Agree regs env env') (two : Agree regs env' env'') :
    Agree regs env env'' := fun r below => (one r below).trans (two r below)

theorem Agree.mono {more : Nat} (agree : Agree more env env') (le : regs ≤ more) :
    Agree regs env env' := fun r below => agree r (Nat.lt_of_lt_of_le below le)

theorem Agree.update (agree : Agree regs env env') (c : Reg) (value : Bool) :
    Agree regs (Function.update env c value) (Function.update env' c value) := by
  intro r below
  rcases eq_or_ne r c with rfl | other
  · rw [Function.update_self, Function.update_self]
  · rw [Function.update_of_ne other, Function.update_of_ne other]
    exact agree r below

theorem Agree.exec {code : List (Reg × Op)} (agree : Agree regs env env') :
    Agree regs (exec eval code env) (exec eval code env') := by
  induction code generalizing env env' with
  | nil => exact agree
  | cons inst code ih => exact ih (agree.update inst.1 (eval inst.2))

theorem agree_update {c : Reg} {value : Bool} (new : regs ≤ c) :
    Agree regs env (Function.update env c value) :=
  fun _ below => (Function.update_of_ne (Nat.ne_of_lt (Nat.lt_of_lt_of_le below new)) _ _).symm

/-- New registers only are written. -/
theorem agree_exec {code : List (Reg × Op)} (new : ∀ inst ∈ code, regs ≤ inst.1) :
    Agree regs env (exec eval code env) := by
  induction code generalizing env with
  | nil => exact fun _ _ => rfl
  | cons inst code ih =>
      obtain ⟨first, later⟩ := List.forall_mem_cons.mp new
      exact (agree_update first).trans (ih later)

theorem exec_append (first second : List (Reg × Op)) :
    exec eval (first ++ second) env = exec eval second (exec eval first env) :=
  List.foldl_append

theorem Source.get_agree {source : Source} (below : source.Below regs)
    (agree : Agree regs env env') : source.get env = source.get env' := by
  cases source with
  | const value => rfl
  | reg r => exact agree r below

theorem Exit.next_agree {exit : Exit} (below : exit.Below regs) (agree : Agree regs env env') :
    exit.next env = exit.next env' := by
  cases exit with
  | branch cond yes no => rw [Exit.next, Exit.next, agree cond below]
  | _ => rfl

theorem redirect_inj {label other : Label} (known : label < stop) (known' : other < stop) :
    redirect block stop label = redirect block stop other ↔ label = other := by
  have away := Nat.ne_of_lt known
  have away' := Nat.ne_of_lt known'
  unfold redirect
  grind

theorem lookup_redirect {incoming : List (Label × Source)} {pred : Label} (known : pred < stop)
    (below : ∀ entry ∈ incoming, entry.1 < stop) :
    (incoming.map fun entry => (redirect block stop entry.1, entry.2)).lookup
      (redirect block stop pred) = incoming.lookup pred := by
  induction incoming with
  | nil => rfl
  | cons entry incoming ih =>
      obtain ⟨first, later⟩ := List.forall_mem_cons.mp below
      rw [List.map_cons, List.lookup_cons, List.lookup_cons, ih later]
      have same := @redirect_inj block stop pred entry.1 known first
      by_cases here : pred = entry.1
      · simp [here]
      · have away : redirect block stop pred ≠ redirect block stop entry.1 :=
          fun equal => here (same.mp equal)
        simp only [beq_false_of_ne here, beq_false_of_ne away]

theorem Phi.enter_redirect (block : Label) {phi : Phi} {pred : Option Label} {after : Env}
    (below : ∀ entry ∈ phi.incoming, entry.1 < stop ∧ entry.2.Below regs)
    (known : ∀ p ∈ pred, p < stop) (agree : Agree regs env env')
    (entered : phi.enter pred env = some after) :
    ∃ after', (phi.redirect block stop).enter (pred.map (ControlFlow.redirect block stop)) env' =
      some after' ∧ Agree regs after after' := by
  obtain ⟨value, found, rfl⟩ := Option.map_eq_some_iff.mp entered
  obtain ⟨p, rfl, found⟩ := Option.bind_eq_some_iff.mp found
  obtain ⟨source, looked, rfl⟩ := Option.map_eq_some_iff.mp found
  have member : (p, source) ∈ phi.incoming := by
    obtain ⟨before, rest, split, _⟩ := List.lookup_eq_some_iff.mp looked
    rw [split]
    exact List.mem_append_right _ List.mem_cons_self
  have same := source.get_agree (below _ member).2 agree
  refine ⟨Function.update env' phi.result (source.get env), ?_, agree.update _ _⟩
  rw [Phi.enter, Option.map_some, Option.bind_some, valueFrom, Phi.redirect,
    lookup_redirect (known p rfl) fun entry member => (below entry member).1, looked,
    Option.map_some, Option.map_some, same]

theorem Node.Below.run_redirect (block : Label) {node : Node Op} {pred : Option Label} {after : Env}
    (below : node.Below stop regs) (known : ∀ p ∈ pred, p < stop) (agree : Agree regs env env')
    (ran : node.run eval pred env = some after) :
    ∃ after', (node.redirect block stop).run eval
      (pred.map (ControlFlow.redirect block stop)) env' = some after' ∧
        Agree regs after after' := by
  obtain ⟨phi, code, exit⟩ := node
  obtain ⟨entered, enters, rfl⟩ := Option.map_eq_some_iff.mp ran
  cases phi with
  | none =>
      obtain rfl := Option.some.inj enters
      exact ⟨exec eval code env', rfl, agree.exec⟩
  | some phi =>
      obtain ⟨entered', enters', agrees⟩ :=
        Phi.enter_redirect block (below.phi phi rfl).2 known agree enters
      refine ⟨exec eval code entered', ?_, agrees.exec⟩
      simp only [Node.run, Node.redirect, Option.map_some, Option.elim_some, enters']

/-! ## The replaced instruction -/

/-- The instruction is in the graph, and its register is given by no other one. -/
structure Graph.Defines (g : Graph Op) (c : Reg) (op : Op) : Prop where
  here : ∃ node ∈ g.nodes, (c, op) ∈ node.code
  only : ∀ node ∈ g.nodes, ∀ other, (c, other) ∈ node.code → other = op

theorem Node.code_split {node : Node Op} {c : Reg} {op : Op} (member : (c, op) ∈ node.code)
    (only : ∀ other, (c, other) ∈ node.code → other = op) :
    node.code = node.before c ++ (c, op) :: node.after c := by
  obtain ⟨phi, code, exit⟩ := node
  simp only [Node.before, Node.after] at member only ⊢
  induction code with
  | nil => cases member
  | cons inst code ih =>
      by_cases here : inst.1 = c
      · subst here
        have value := only inst.2 List.mem_cons_self
        simp [← value]
      · have later : (c, op) ∈ code := by
          rcases List.mem_cons.mp member with rfl | later
          · exact absurd rfl here
          · exact later
        have rest := ih later fun other inCode => only other (List.mem_cons_of_mem _ inCode)
        simpa [here] using rest

variable {g : Graph Op} {c : Reg} {op : Op} {region : Region Op} {node : Node Op}

theorem Graph.Defines.parent (defines : g.Defines c op) :
    ∃ block node, g.parent c = some block ∧ g.nodes[block]? = some node ∧ (c, op) ∈ node.code := by
  obtain ⟨node, inGraph, member⟩ := defines.here
  have some : (g.nodes.findIdx? fun node => node.code.any fun inst => inst.1 = c).isSome := by
    rw [List.findIdx?_isSome, List.any_eq_true]
    exact ⟨node, inGraph, List.any_eq_true.mpr ⟨_, member, decide_eq_true rfl⟩⟩
  obtain ⟨block, result⟩ := Option.isSome_iff_exists.mp some
  obtain ⟨below, has, _⟩ := List.findIdx?_eq_some_iff_getElem.mp result
  obtain ⟨inst, inCode, same⟩ := List.any_eq_true.mp has
  have name : inst.1 = c := of_decide_eq_true same
  refine ⟨block, _, result, List.getElem?_eq_getElem below, ?_⟩
  have value := defines.only _ (List.getElem_mem below) inst.2 (by rwa [← name])
  rwa [← name, ← value]

theorem Graph.Defines.inst (defines : g.Defines c op) : g.inst c = some op := by
  obtain ⟨node, inGraph, member⟩ := defines.here
  have inAll : (c, op) ∈ g.nodes.flatMap Node.code := List.mem_flatMap.mpr ⟨node, inGraph, member⟩
  have some : (List.lookup c (g.nodes.flatMap Node.code)).isSome := by
    rw [List.lookup_isSome_iff]
    exact ⟨_, inAll, beq_self_eq_true c⟩
  obtain ⟨value, found⟩ := Option.isSome_iff_exists.mp some
  obtain ⟨before, rest, split, _⟩ := List.lookup_eq_some_iff.mp found
  have inAll : (c, value) ∈ g.nodes.flatMap Node.code := by
    rw [split]
    exact List.mem_append_right _ List.mem_cons_self
  obtain ⟨other, inGraph, member⟩ := List.mem_flatMap.mp inAll
  rw [Graph.inst, found, defines.only other inGraph value member]

/-! ### The blocks of the new graph -/

theorem Graph.expand_nodes (found : g.nodes[block]? = some node) :
    (g.expand block c region).nodes = (g.nodes.map (Node.redirect block g.nodes.length)).set block
        ⟨(node.redirect block g.nodes.length).phi, node.before c ++ region.code, region.exit⟩ ++
      ⟨some ⟨c, region.incoming⟩, node.after c, node.exit⟩ :: region.nodes := by
  rw [Graph.expand, found]

theorem Graph.expand_freshReg (found : g.nodes[block]? = some node) :
    (g.expand block c region).freshReg = g.freshReg + region.regs := by
  rw [Graph.expand, found]

theorem Graph.expand_other (found : g.nodes[block]? = some node) {label : Label} {other : Node Op}
    (away : label ≠ block) (there : g.nodes[label]? = some other) :
    (g.expand block c region).nodes[label]? = some (other.redirect block g.nodes.length) := by
  have below := (List.getElem?_eq_some_iff.mp there).1
  rw [Graph.expand_nodes found, List.getElem?_append_left (by simpa using below),
    List.getElem?_set_ne away.symm, List.getElem?_map, there, Option.map_some]

theorem Graph.expand_block (found : g.nodes[block]? = some node) :
    (g.expand block c region).nodes[block]? =
      some ⟨(node.redirect block g.nodes.length).phi, node.before c ++ region.code, region.exit⟩ := by
  have below := (List.getElem?_eq_some_iff.mp found).1
  rw [Graph.expand_nodes found, List.getElem?_append_left (by simpa using below),
    List.getElem?_set_self (by simpa using below)]

theorem Graph.expand_stop (found : g.nodes[block]? = some node) :
    (g.expand block c region).nodes[g.nodes.length]? =
      some ⟨some ⟨c, region.incoming⟩, node.after c, node.exit⟩ := by
  rw [Graph.expand_nodes found, List.getElem?_append_right (by simp)]
  simp

theorem Graph.expand_region (found : g.nodes[block]? = some node) (i : Nat) :
    (g.expand block c region).nodes[g.nodes.length + 1 + i]? = region.nodes[i]? := by
  rw [Graph.expand_nodes found, List.getElem?_append_right (by simp; omega)]
  simp [Nat.add_comm 1 i, Nat.add_assoc]

/-! ## Simulation -/

/-- Control that leaves `block` through the code of the region reaches `stop`, where the
phi node receives `value`; old registers stay. -/
def Region.Delivers (eval : Op → Bool) (region : Region Op) (g : Graph Op) (block stop : Label)
    (regs : Reg) (value : Bool) : Prop :=
  ∀ env, ∃ next pred after, region.exit.next (exec eval region.code env) = some next ∧
    g.Steps eval ⟨next, some block, exec eval region.code env⟩ ⟨stop, some pred, after⟩ ∧
      valueFrom region.incoming pred after = some value ∧ Agree regs env after

structure Matches (g : Graph Op) (block : Label) (config config' : Config) : Prop where
  known : ∀ p ∈ config.pred, p < g.nodes.length
  place : config'.block = config.block
  pred : config'.pred = config.pred.map (redirect block g.nodes.length)
  env : Agree g.freshReg config.env config'.env

/-- The new graph does what the block did, the replaced instruction included. -/
theorem Region.Delivers.run
    (delivers : region.Delivers eval (g.expand block c region) block g.nodes.length g.freshReg
      (eval op)) (wellFormed : g.WellFormed) (defines : g.Defines c op)
    (found : g.nodes[block]? = some node) (here : (c, op) ∈ node.code)
    {config config' : Config} (similar : Matches g block config config')
    (atBlock : config.block = block)
    {after : Env} (ran : node.run eval config.pred config.env = some after) :
    ∃ pred middle after', (g.expand block c region).Steps eval config'
        ⟨g.nodes.length, some pred, middle⟩ ∧
      Node.run eval ⟨some ⟨c, region.incoming⟩, node.after c, node.exit⟩ (some pred) middle =
        some after' ∧ Agree g.freshReg after after' := by
  have member := List.mem_of_getElem? found
  obtain ⟨entered, enters, rfl⟩ := Option.map_eq_some_iff.mp ran
  have headRan : (⟨node.phi, [], node.exit⟩ : Node Op).run eval config.pred config.env =
      some entered := by rw [Node.run, enters]; rfl
  have below := wellFormed node member
  have headBelow : (⟨node.phi, [], node.exit⟩ : Node Op).Below g.nodes.length g.freshReg :=
    ⟨below.phi, List.forall_mem_nil _, below.exit⟩
  obtain ⟨entered', enters', agrees⟩ :=
    headBelow.run_redirect block similar.known similar.env headRan
  obtain ⟨next, pred, middle, left, steps, value, kept⟩ :=
    delivers (exec eval (node.before c) entered')
  refine ⟨pred, middle, exec eval (node.after c) (Function.update middle c (eval op)), ?_, ?_, ?_⟩
  · refine Relation.ReflTransGen.head ?_ steps
    have place : config'.block = block := similar.place.trans atBlock
    have first : (g.expand block c region).nodes[config'.block]? = _ :=
      (congrArg _ place).trans (Graph.expand_block found)
    have ran' : Node.run eval ⟨(node.redirect block g.nodes.length).phi,
        node.before c ++ region.code, region.exit⟩ config'.pred config'.env =
        some (exec eval region.code (exec eval (node.before c) entered')) := by
      rw [similar.pred]
      simp only [Node.run, Node.redirect, Option.map_eq_some_iff] at enters' ⊢
      obtain ⟨phiEnv, phiRan, rfl⟩ := enters'
      exact ⟨phiEnv, phiRan, exec_append _ _⟩
    have stepped := Graph.step_eq first ran' left
    rwa [place] at stepped
  · simp only [Node.run, Phi.enter, Option.elim_some, Option.bind_some, value, Option.map_some]
  · have only := fun other inCode => defines.only node member other inCode
    rw [Node.code_split here only, exec_append]
    exact ((agrees.exec.trans kept).update c (eval op)).exec

/-- The new graph follows a step of the old one. -/
theorem Region.Delivers.step
    (delivers : region.Delivers eval (g.expand block c region) block g.nodes.length g.freshReg
      (eval op)) (wellFormed : g.WellFormed) (defines : g.Defines c op)
    (found : g.nodes[block]? = some node) (here : (c, op) ∈ node.code)
    {config config' next : Config} (similar : Matches g block config config')
    (stepped : g.step eval config = some next) :
    ∃ next', (g.expand block c region).Steps eval config' next' ∧ Matches g block next next' := by
  obtain ⟨current, after, dest, foundHere, ran, left, rfl⟩ := Graph.step_cases stepped
  have below := wellFormed current (List.mem_of_getElem? foundHere)
  have known : config.block < g.nodes.length := (List.getElem?_eq_some_iff.mp foundHere).1
  by_cases atBlock : config.block = block
  · have same : current = node := by
      rw [atBlock, found] at foundHere
      exact (Option.some.inj foundHere).symm
    subst same
    obtain ⟨pred, middle, after', steps, ran', agree⟩ :=
      delivers.run wellFormed defines found here similar atBlock ran
    refine ⟨⟨dest, some g.nodes.length, after'⟩, steps.tail ?_, ?_, rfl, ?_, agree⟩
    · exact Graph.step_eq (Graph.expand_stop found) ran'
        ((current.exit.next_agree below.exit agree).symm.trans left)
    · rintro p ⟨⟩
      exact known
    · simp [redirect, atBlock]
  · obtain ⟨after', ran', agree⟩ :=
      below.run_redirect block similar.known similar.env ran
    rw [← similar.pred] at ran'
    have there : (g.expand block c region).nodes[config'.block]? = _ :=
      (congrArg _ similar.place).trans (Graph.expand_other found atBlock foundHere)
    refine ⟨⟨dest, some config'.block, after'⟩, .single (Graph.step_eq there ran'
      ((current.exit.next_agree below.exit agree).symm.trans left)), ?_, rfl, ?_, agree⟩
    · rintro p ⟨⟩
      exact known
    · simp [redirect, atBlock, similar.place]

theorem Region.Delivers.final
    (delivers : region.Delivers eval (g.expand block c region) block g.nodes.length g.freshReg
      (eval op)) (wellFormed : g.WellFormed) (defines : g.Defines c op)
    (found : g.nodes[block]? = some node) (here : (c, op) ∈ node.code)
    {config config' : Config} (similar : Matches g block config config') {after : Env}
    (ended : g.final eval config = some after) :
    ∃ after', (g.expand block c region).Runs eval config' after' ∧
      Agree g.freshReg after after' := by
  obtain ⟨current, foundHere, ran, left⟩ := Graph.final_cases ended
  have below := wellFormed current (List.mem_of_getElem? foundHere)
  by_cases atBlock : config.block = block
  · have same : current = node := by
      rw [atBlock, found] at foundHere
      exact (Option.some.inj foundHere).symm
    subst same
    obtain ⟨pred, middle, after', steps, ran', agree⟩ :=
      delivers.run wellFormed defines found here similar atBlock ran
    exact ⟨after', ⟨_, steps, Graph.final_eq (Graph.expand_stop found) ran'
      ((current.exit.next_agree below.exit agree).symm.trans left)⟩, agree⟩
  · obtain ⟨after', ran', agree⟩ :=
      below.run_redirect block similar.known similar.env ran
    rw [← similar.pred] at ran'
    have there : (g.expand block c region).nodes[config'.block]? = _ :=
      (congrArg _ similar.place).trans (Graph.expand_other found atBlock foundHere)
    exact ⟨after', ⟨_, .refl, Graph.final_eq there ran'
      ((current.exit.next_agree below.exit agree).symm.trans left)⟩, agree⟩

/-- What a run of the old graph leaves in its registers, a run of the new one does. -/
def Simulates (eval : Op → Bool) (g g' : Graph Op) : Prop :=
  ∀ env after, g.Runs eval (.entry env) after →
    ∃ after', g'.Runs eval (.entry env) after' ∧ Agree g.freshReg after after'

theorem Simulates.refl (g : Graph Op) : Simulates eval g g :=
  fun _ after runs => ⟨after, runs, fun _ _ => rfl⟩

theorem Simulates.trans {g' g'' : Graph Op} (one : Simulates eval g g')
    (two : Simulates eval g' g'') (more : g.freshReg ≤ g'.freshReg) : Simulates eval g g'' := by
  intro env after runs
  obtain ⟨middle, runs', agree⟩ := one env after runs
  obtain ⟨last, runs'', agree'⟩ := two env middle runs'
  exact ⟨last, runs'', agree.trans (agree'.mono more)⟩

/-- A region that delivers the value of an instruction can stand for it. -/
theorem Graph.expand_simulates (wellFormed : g.WellFormed) (defines : g.Defines c op)
    (found : g.nodes[block]? = some node) (here : (c, op) ∈ node.code)
    (delivers : region.Delivers eval (g.expand block c region) block g.nodes.length g.freshReg
      (eval op)) : Simulates eval g (g.expand block c region) := by
  intro env after ⟨last, steps, ended⟩
  have follows : ∃ last', (g.expand block c region).Steps eval (.entry env) last' ∧
      Matches g block last last' := by
    clear ended
    induction steps with
    | refl => exact ⟨_, .refl, fun _ none => (Option.not_mem_none _ none).elim, rfl, rfl,
        fun _ _ => rfl⟩
    | tail _ stepped ih =>
        obtain ⟨between, before, similar⟩ := ih
        obtain ⟨next, more, similar⟩ := delivers.step wellFormed defines found here similar stepped
        exact ⟨next, before.trans more, similar⟩
  obtain ⟨last', steps', similar⟩ := follows
  obtain ⟨after', ⟨final, more, ended'⟩, agree'⟩ :=
    delivers.final wellFormed defines found here similar ended
  exact ⟨after', ⟨final, steps'.trans more, ended'⟩, agree'⟩

/-! ## What the new graph defines -/

def Region.insts (region : Region Op) : List (Reg × Op) :=
  region.code ++ region.nodes.flatMap Node.code

/-- The region names its own registers and those of the graph, and its own blocks. -/
structure Region.WellFormed (region : Region Op) (labels regs : Nat) : Prop where
  insts : ∀ inst ∈ region.insts, regs ≤ inst.1 ∧ inst.1 < regs + region.regs
  nodup : (region.insts.map (·.1)).Nodup
  exit : region.exit.Below (regs + region.regs)
  nodes : ∀ node ∈ region.nodes,
    node.Below (labels + 1 + region.nodes.length) (regs + region.regs)
  incoming : ∀ entry ∈ region.incoming,
    entry.1 < labels + 1 + region.nodes.length ∧ entry.2.Below (regs + region.regs)

def Graph.Has (g : Graph Op) (r : Reg) (op : Op) : Prop := ∃ node ∈ g.nodes, (r, op) ∈ node.code

theorem Graph.expand_has (found : g.nodes[block]? = some node) {r : Reg} {other : Op}
    (has : (g.expand block c region).Has r other) : g.Has r other ∨ (r, other) ∈ region.insts := by
  have member := List.mem_of_getElem? found
  have sub : ∀ {inst}, inst ∈ node.before c → inst ∈ node.code :=
    fun inside => (List.takeWhile_sublist _).subset inside
  have sub' : ∀ {inst}, inst ∈ node.after c → inst ∈ node.code :=
    fun inside => (List.dropWhile_sublist _).subset (List.mem_of_mem_tail inside)
  obtain ⟨current, inGraph, inCode⟩ := has
  rw [Graph.expand_nodes found] at inGraph
  rcases List.mem_append.mp inGraph with old | new
  · rcases List.mem_or_eq_of_mem_set old with kept | rfl
    · obtain ⟨before, inOld, rfl⟩ := List.mem_map.mp kept
      exact .inl ⟨before, inOld, inCode⟩
    · rcases List.mem_append.mp inCode with before | added
      · exact .inl ⟨node, member, sub before⟩
      · exact .inr (List.mem_append_left _ added)
  · rcases List.mem_cons.mp new with rfl | added
    · exact .inl ⟨node, member, sub' inCode⟩
    · exact .inr (List.mem_append_right _ (List.mem_flatMap.mpr ⟨current, added, inCode⟩))

theorem Graph.expand_adds (found : g.nodes[block]? = some node) {r : Reg} {other : Op}
    (added : (r, other) ∈ region.insts) : (g.expand block c region).Has r other := by
  rcases List.mem_append.mp added with first | later
  · exact ⟨_, List.mem_of_getElem? (Graph.expand_block found), List.mem_append_right _ first⟩
  · obtain ⟨current, inRegion, inCode⟩ := List.mem_flatMap.mp later
    obtain ⟨i, below, rfl⟩ := List.mem_iff_getElem.mp inRegion
    have there : (g.expand block c region).nodes[_]? = _ := Graph.expand_region found i
    rw [List.getElem?_eq_getElem below] at there
    exact ⟨_, List.mem_of_getElem? there, inCode⟩

theorem Graph.expand_keeps (defines : g.Defines c op) (found : g.nodes[block]? = some node)
    (here : (c, op) ∈ node.code) {r : Reg} {other : Op} (away : r ≠ c) (has : g.Has r other) :
    (g.expand block c region).Has r other := by
  obtain ⟨current, inGraph, inCode⟩ := has
  obtain ⟨label, below, rfl⟩ := List.mem_iff_getElem.mp inGraph
  have there := List.getElem?_eq_getElem below
  rcases eq_or_ne label block with rfl | elsewhere
  · obtain rfl : g.nodes[label] = node := Option.some.inj (there.symm.trans found)
    have only := fun other inCode => defines.only _ inGraph other inCode
    rw [Node.code_split here only] at inCode
    rcases List.mem_append.mp inCode with before | rest
    · exact ⟨_, List.mem_of_getElem? (Graph.expand_block found), List.mem_append_left _ before⟩
    · rcases List.mem_cons.mp rest with same | after
      · exact absurd (congrArg Prod.fst same) away
      · exact ⟨_, List.mem_of_getElem? (Graph.expand_stop found), after⟩
  · exact ⟨_, List.mem_of_getElem? (Graph.expand_other found elsewhere there), inCode⟩

/-- The other instructions stay. -/
theorem Graph.Defines.expand (wellFormed : g.WellFormed) (defines : g.Defines c op)
    (found : g.nodes[block]? = some node) (here : (c, op) ∈ node.code)
    (valid : region.WellFormed g.nodes.length g.freshReg) {r : Reg} {other : Op} (away : r ≠ c)
    (defined : g.Defines r other) : (g.expand block c region).Defines r other := by
  refine ⟨Graph.expand_keeps defines found here away defined.here, fun current inGraph op' inCode =>
    ?_⟩
  rcases Graph.expand_has found ⟨current, inGraph, inCode⟩ with ⟨old, inOld, inCode⟩ | added
  · exact defined.only old inOld op' inCode
  · obtain ⟨old, inOld, inCode⟩ := defined.here
    have below := (wellFormed old inOld).code _ inCode
    exact absurd (valid.insts _ added).1 (Nat.not_le.mpr below)

theorem Graph.expand_defines (wellFormed : g.WellFormed)
    (found : g.nodes[block]? = some node)
    (valid : region.WellFormed g.nodes.length g.freshReg) {r : Reg} {other : Op}
    (added : (r, other) ∈ region.insts) : (g.expand block c region).Defines r other := by
  refine ⟨Graph.expand_adds found added, fun current inGraph op' inCode => ?_⟩
  rcases Graph.expand_has found ⟨current, inGraph, inCode⟩ with ⟨old, inOld, inCode⟩ | added'
  · have below := (wellFormed old inOld).code _ inCode
    exact absurd (valid.insts _ added).1 (Nat.not_le.mpr below)
  · have same := List.inj_on_of_nodup_map valid.nodup added' added rfl
    exact congrArg Prod.snd same

theorem Source.Below.mono {source : Source} {more : Nat} (below : source.Below regs)
    (le : regs ≤ more) : source.Below more := by
  cases source with
  | const value => trivial
  | reg r => exact Nat.lt_of_lt_of_le below le

theorem Exit.Below.mono {exit : Exit} {more : Nat} (below : exit.Below regs) (le : regs ≤ more) :
    exit.Below more := by
  cases exit with
  | branch cond yes no => exact Nat.lt_of_lt_of_le below le
  | _ => trivial

theorem Node.Below.redirect (block : Label) {labels labels' regs' : Nat} (below : node.Below labels regs)
    (known : stop < labels') (moreLabels : labels ≤ labels') (moreRegs : regs ≤ regs') :
    (node.redirect block stop).Below labels' regs' := by
  refine ⟨fun phi renamed => ?_, fun inst inCode =>
    Nat.lt_of_lt_of_le (below.code inst inCode) moreRegs, below.exit.mono moreRegs⟩
  obtain ⟨old, isPhi, rfl⟩ := Option.map_eq_some_iff.mp renamed
  obtain ⟨result, incoming⟩ := below.phi old isPhi
  refine ⟨Nat.lt_of_lt_of_le result moreRegs, fun entry renamed => ?_⟩
  obtain ⟨before, member, rfl⟩ := List.mem_map.mp renamed
  obtain ⟨label, source⟩ := incoming before member
  refine ⟨?_, source.mono moreRegs⟩
  simp only [ControlFlow.redirect]
  split
  · exact known
  · exact Nat.lt_of_lt_of_le label moreLabels

theorem Graph.expand_wellFormed (wellFormed : g.WellFormed)
    (found : g.nodes[block]? = some node) (here : (c, op) ∈ node.code)
    (valid : region.WellFormed g.nodes.length g.freshReg) :
    (g.expand block c region).WellFormed := by
  have member := List.mem_of_getElem? found
  have below := wellFormed node member
  have moreRegs : g.freshReg ≤ g.freshReg + region.regs := Nat.le_add_right _ _
  have size : (g.expand block c region).nodes.length = g.nodes.length + 1 + region.nodes.length := by
    rw [Graph.expand_nodes found]
    simp
    omega
  have code : ∀ inst ∈ node.code, inst.1 < g.freshReg + region.regs := fun inst inCode =>
    Nat.lt_of_lt_of_le (below.code inst inCode) moreRegs
  intro current inGraph
  rw [size, Graph.expand_freshReg found]
  rw [Graph.expand_nodes found] at inGraph
  rcases List.mem_append.mp inGraph with old | new
  · rcases List.mem_or_eq_of_mem_set old with kept | rfl
    · obtain ⟨before, inOld, rfl⟩ := List.mem_map.mp kept
      exact (wellFormed before inOld).redirect block (by omega) (by omega) moreRegs
    · have renamed : (node.redirect block g.nodes.length).Below
          (g.nodes.length + 1 + region.nodes.length) (g.freshReg + region.regs) :=
        below.redirect block (by omega) (by omega) moreRegs
      refine ⟨renamed.phi, fun inst inCode => ?_, valid.exit⟩
      rcases List.mem_append.mp inCode with before | added
      · exact code inst ((List.takeWhile_sublist _).subset before)
      · exact (valid.insts inst (List.mem_append_left _ added)).2
  · rcases List.mem_cons.mp new with rfl | added
    · refine ⟨?_, fun inst inCode => ?_, below.exit.mono moreRegs⟩
      · rintro phi ⟨⟩
        exact ⟨code _ here, valid.incoming⟩
      · exact code inst ((List.dropWhile_sublist _).subset (List.mem_of_mem_tail inCode))
    · exact valid.nodes current added

/-! ## Chains of replacements -/

variable {Operands : Type} {evals : Operands → Op → Bool}

/-- The code after some replacements does what it did, whatever the operands are. -/
structure Keeps (evals : Operands → Op → Bool) (g after : Graph Op) : Prop where
  wellFormed : after.WellFormed
  more : g.freshReg ≤ after.freshReg
  simulates : ∀ operands, Simulates (evals operands) g after

theorem Keeps.refl (wellFormed : g.WellFormed) : Keeps evals g g :=
  ⟨wellFormed, Nat.le_refl _, fun _ => .refl g⟩

theorem Keeps.trans {middle last : Graph Op} (one : Keeps evals g middle)
    (two : Keeps evals middle last) : Keeps evals g last :=
  ⟨two.wellFormed, Nat.le_trans one.more two.more, fun operands =>
    (one.simulates operands).trans (two.simulates operands) one.more⟩

/-- One instruction was replaced; the others stay, and those of the region are new. -/
structure Replaces (evals : Operands → Op → Bool) (g : Graph Op) (c : Reg) (region : Region Op)
    (after : Graph Op) : Prop where
  keeps : Keeps evals g after
  others : ∀ r op, r ≠ c → g.Defines r op → after.Defines r op
  adds : ∀ r op, (r, op) ∈ region.insts → after.Defines r op

theorem replaces_expand (wellFormed : g.WellFormed) (defines : g.Defines c op)
    (found : g.nodes[block]? = some node) (here : (c, op) ∈ node.code)
    (valid : region.WellFormed g.nodes.length g.freshReg)
    (delivers : ∀ operands, region.Delivers (evals operands) (g.expand block c region) block
      g.nodes.length g.freshReg (evals operands op)) :
    Replaces evals g c region (g.expand block c region) := by
  refine ⟨⟨Graph.expand_wellFormed wellFormed found here valid, ?_, fun operands =>
    Graph.expand_simulates wellFormed defines found here (delivers operands)⟩,
    fun r op away defined => defines.expand wellFormed found here valid away defined,
    fun r op added => Graph.expand_defines wellFormed found valid added⟩
  rw [Graph.expand_freshReg found]
  exact Nat.le_add_right _ _

/-! ## Instructions of their own registers -/

def Graph.insts (g : Graph Op) : List (Reg × Op) := g.nodes.flatMap Node.code

/-- No two instructions share a register. -/
def Graph.Single (g : Graph Op) : Prop := (g.insts.map Prod.fst).Nodup

theorem Graph.has_iff {r : Reg} : g.Has r op ↔ (r, op) ∈ g.insts := by
  rw [Graph.insts, List.mem_flatMap]
  rfl

theorem insts_redirect (nodes : List (Node Op)) (block stop : Label) :
    (nodes.map (Node.redirect block stop)).flatMap Node.code = nodes.flatMap Node.code := by
  induction nodes with
  | nil => rfl
  | cons node nodes ih =>
      rw [List.map_cons, List.flatMap_cons, List.flatMap_cons, ih]
      rfl

/-- The instruction gives way to those of the region. -/
theorem Graph.expand_insts (defines : g.Defines c op) (found : g.nodes[block]? = some node)
    (here : (c, op) ∈ node.code) :
    ((c, op) :: (g.expand block c region).insts).Perm (region.insts ++ g.insts) := by
  obtain ⟨below, rfl⟩ := List.getElem?_eq_some_iff.mp found
  have split := Node.code_split here fun other inCode =>
    defines.only _ (List.getElem_mem below) other inCode
  have old : g.insts = (g.nodes.take block).flatMap Node.code ++
      (g.nodes[block].before c ++ (c, op) :: g.nodes[block].after c ++
        (g.nodes.drop (block + 1)).flatMap Node.code) := by
    have parts := List.take_append_drop block g.nodes
    rw [List.drop_eq_getElem_cons below] at parts
    rw [Graph.insts, ← split, ← List.flatMap_cons, ← List.flatMap_append, parts]
  have new : (g.expand block c region).insts = (g.nodes.take block).flatMap Node.code ++
      (g.nodes[block].before c ++ region.code ++
        ((g.nodes.drop (block + 1)).flatMap Node.code ++
          (g.nodes[block].after c ++ region.nodes.flatMap Node.code))) := by
    rw [Graph.insts, Graph.expand_nodes found, List.set_eq_take_append_cons_drop,
      if_pos (by simpa using below), ← List.map_take, ← List.map_drop, List.flatMap_append,
      List.flatMap_append, List.flatMap_cons, List.flatMap_cons, insts_redirect, insts_redirect,
      List.append_assoc, List.append_assoc]
  classical
  refine List.perm_iff_count.mpr fun inst => ?_
  rw [old, new, Region.insts]
  simp only [List.count_append, List.count_cons]
  omega

/-- Nothing is left of the instruction, and the registers of the region are new. -/
theorem Graph.Single.expand (single : g.Single) (wellFormed : g.WellFormed)
    (defines : g.Defines c op) (found : g.nodes[block]? = some node) (here : (c, op) ∈ node.code)
    (valid : region.WellFormed g.nodes.length g.freshReg) :
    (g.expand block c region).Single ∧
      ∀ r other, (g.expand block c region).Has r other →
        (g.Has r other ∧ r ≠ c) ∨ (r, other) ∈ region.insts := by
  have disjoint : (region.insts.map Prod.fst).Disjoint (g.insts.map Prod.fst) := by
    intro r inRegion inGraph
    obtain ⟨added, isAdded, rfl⟩ := List.mem_map.mp inRegion
    obtain ⟨old, isOld, same⟩ := List.mem_map.mp inGraph
    obtain ⟨current, inGraph, inCode⟩ := Graph.has_iff.mpr isOld
    have below := (wellFormed current inGraph).code _ inCode
    have above := (valid.insts added isAdded).1
    exact absurd (same ▸ below) (Nat.not_lt.mpr above)
  have all : ((region.insts ++ g.insts).map Prod.fst).Nodup := by
    rw [List.map_append]
    exact List.nodup_append'.mpr ⟨valid.nodup, single, disjoint⟩
  have insts : ((c, op) :: (g.expand block c region).insts).Perm (region.insts ++ g.insts) :=
    Graph.expand_insts defines found here
  have perm := insts.map Prod.fst
  have nodup := perm.nodup_iff.mpr all
  rw [List.map_cons, List.nodup_cons] at nodup
  refine ⟨nodup.2, fun r other has => ?_⟩
  have away : r ≠ c := by
    rintro rfl
    exact nodup.1 (List.mem_map.mpr ⟨_, Graph.has_iff.mp has, rfl⟩)
  rcases Graph.expand_has found has with old | added
  · exact .inl ⟨old, away⟩
  · exact .inr added

end

end SbFuzz.Systems.ControlFlow
