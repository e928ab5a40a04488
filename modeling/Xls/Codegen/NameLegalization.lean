import Xls.Ir.FunctionBase
import Mathlib.Data.List.Infix

/-!
# Name legalization

`NameLegalizationPass` of codegen: in each block of the package, a node named
by a keyword of the target language (Verilog, or SystemVerilog with
`use_system_verilog`) is renamed; a module or a port named by a keyword is an
error, as those names are the block's interface. The new name is the one
`Node::SetName(old_name)` picks: the block's name uniquer, whose code is not
part of this development, gives a name other than the node's current one, and
two `RET_CHECK`s make sure it differs from the old name and is no keyword.

* `legalizeNodes_spec`, `legalizeNames_spec`: what the loop over the nodes and
  `LegalizeNames` leave (`Renamed`, `Legalized`): every node name that was no
  keyword kept, every keyword replaced by a name that is none, and the block
  reported changed exactly when one of its nodes was named by a keyword;
* `runInternal_legalized`: so for the whole pass, whatever names the uniquer
  gives;
* `legalizeNames_ok_iff`: with the uniquer's names, the old one, `__` and a
  suffix, the `RET_CHECK`s never fire (no keyword has `__` in it):
  `LegalizeNames` fails exactly on a module or a port named by a keyword.
-/

namespace Xls.Codegen

/-- `VerilogKeywords()`. -/
def verilogKeywords : List String := [
  "always", "and", "assign", "automatic", "begin", "buf", "bufif0", "bufif1", "case", "casex", "casez",
  "cell", "cmos", "config", "deassign", "default", "defparam", "design", "disable", "edge", "else", "end",
  "endcase", "endconfig", "endfunction", "endgenerate", "endmodule", "endprimitive", "endspecify",
  "endtable", "endtask", "event", "for", "force", "forever", "fork", "function", "generate", "genvar",
  "highz0", "highz1", "if", "ifnone", "incdir", "include", "initial", "inout", "input", "instance",
  "integer", "join", "large", "liblist", "library", "localparam", "macromodule", "medium", "module", "nand",
  "negedge", "nmos", "nor", "noshowcancelled", "not", "notif0", "notif1", "or", "output", "parameter",
  "pmos", "posedge", "primitive", "pull0", "pull1", "pulldown", "pullup", "pulsestyle_onevent",
  "pulsestyle_ondetect", "rcmos", "real", "realtime", "reg", "release", "repeat", "rnmos", "rpmos", "rtran",
  "rtranif0", "rtranif1", "scalared", "showcancelled", "signed", "small", "specify", "specparam", "strong0",
  "strong1", "supply0", "supply1", "table", "task", "time", "tran", "tranif0", "tranif1", "tri", "tri0",
  "tri1", "triand", "trior", "trireg", "unsigned", "use", "uwire", "vectored", "wait", "wand", "weak0",
  "weak1", "while", "wire", "wor", "xnor", "xor"]

/-- `SystemVerilogKeywords()`: the keywords of 1800-2005, 1800-2009 and
    1800-2012, and the Verilog ones. -/
def systemVerilogKeywords : List String := [
  "alias", "always_comb", "always_ff", "always_latch", "assert", "assume", "before", "bind", "bins",
  "binsof", "bit", "break", "byte", "chandle", "class", "clocking", "const", "constraint", "context",
  "continue", "cover", "covergroup", "coverpoint", "cross", "dist", "do", "endclass", "endclocking",
  "endgroup", "endinterface", "endpackage", "endprogram", "endproperty", "endsequence", "enum", "expect",
  "export", "extends", "extern", "final", "first_match", "foreach", "forkjoin", "iff", "ignore_bins",
  "illegal_bins", "import", "inside", "int", "interface", "intersect", "join_any", "join_none", "local",
  "logic", "longint", "matches", "modport", "new", "null", "package", "packed", "priority", "program",
  "property", "protected", "pure", "rand", "randc", "randcase", "randsequence", "ref", "return", "sequence",
  "shortint", "shortreal", "solve", "static", "string", "struct", "super", "tagged", "this", "throughout",
  "timeprecision", "timeunit", "type", "typedef", "union", "unique", "var", "virtual", "void", "wait_order",
  "wildcard", "with", "within"] ++ [
  "accept_on", "checker", "endchecker", "eventually", "global", "implies", "let", "nexttime", "reject_on",
  "restrict", "s_always", "s_eventually", "s_nexttime", "s_until", "s_until_with", "strong",
  "sync_accept_on", "sync_reject_on", "unique0", "until", "until_with", "untyped", "weak"] ++ [
  "implements", "interconnect", "nettype", "soft"] ++ verilogKeywords

/-- The keywords `LegalizeNames` checks names against. -/
def keywordsFor (useSystemVerilog : Bool) : List String :=
  if useSystemVerilog then systemVerilogKeywords else verilogKeywords

/-- A block as `LegalizeNames` sees it. -/
structure Block (σ : Type) where
  /-- `block->name()`, the module's name. -/
  name : String
  /-- `Block::PortName` of each of `block->GetPorts()`. -/
  ports : List String
  /-- The names of `block->nodes()`, in order. -/
  nodes : List String
  /-- The state of the block's node name uniquer. -/
  uniquer : σ

section Definitions

variable {σ : Type} (uniquify : σ → String → String × σ)

/-- The loop of `LegalizeNames` over the nodes, with `changed` so far: a node
    named by a keyword is renamed (`SetName(old_name)` takes the name
    `uniquify` gives, as the node's current name is in use), and the new name
    is checked. -/
def legalizeNodes (keywords : List String) : Bool → σ → List String → Except String (Bool × σ × List String)
  | changed, u, [] => pure (changed, u, [])
  | changed, u, oldName :: nodes =>
    if oldName ∉ keywords then do
      let (changed, u, names) ← legalizeNodes keywords changed u nodes
      pure (changed, u, oldName :: names)
    else
      let (name, u) := uniquify u oldName
      if name = oldName then throw "RET_CHECK failure: node->GetName() != old_name"
      else if name ∈ keywords then throw "RET_CHECK failure: !keywords.contains(node->GetName())"
      else do
        let (changed, u, names) ← legalizeNodes keywords true u nodes
        pure (changed, u, name :: names)

/-- `LegalizeNames`: whether a node was renamed, and the block after. -/
def legalizeNames (block : Block σ) (useSystemVerilog : Bool) : Except String (Bool × Block σ) :=
  let keywords := keywordsFor useSystemVerilog
  if block.name ∈ keywords then throw ("Module name `" ++ block.name ++ "` is a keyword.")
  else match block.ports.find? (· ∈ keywords) with
    | some name => throw ("Port `" ++ name ++ "` is a keyword.")
    | none => do
      let (changed, u, nodes) ← legalizeNodes uniquify keywords false block.uniquer block.nodes
      pure (changed, { block with nodes := nodes, uniquer := u })

/-- `NameLegalizationPass::RunInternal`: `LegalizeNames` on each block of the
    package in turn, with `changed` so far. -/
def runInternal (useSystemVerilog : Bool) : Bool → List (Block σ) → Except String (Bool × List (Block σ))
  | changed, [] => pure (changed, [])
  | changed, block :: blocks => do
    let (blockChanged, block) ← legalizeNames uniquify block useSystemVerilog
    let (changed, blocks) ← runInternal useSystemVerilog (changed || blockChanged) blocks
    pure (changed, block :: blocks)

end Definitions

/-! ## What the pass leaves -/

/-- What `LegalizeNames` does to one node's name: a name that is no keyword
    stays, a keyword becomes another name, itself no keyword. -/
structure Renamed (keywords : List String) (old new : String) : Prop where
  not_keyword : new ∉ keywords
  keep : old ∉ keywords → new = old
  fresh : old ∈ keywords → new ≠ old

/-- What `LegalizeNames` leaves of a block: the module and its ports, named by
    no keyword, as they were, and each node renamed as `Renamed` says. -/
structure Legalized {σ : Type} (keywords : List String) (block block' : Block σ) : Prop where
  name_not_keyword : block.name ∉ keywords
  ports_not_keyword : ∀ p ∈ block.ports, p ∉ keywords
  name_eq : block'.name = block.name
  ports_eq : block'.ports = block.ports
  nodes : List.Forall₂ (Renamed keywords) block.nodes block'.nodes

section Spec

variable {σ : Type} {uniquify : σ → String → String × σ} {keywords : List String}

/-- The loop over the nodes renames each as `Renamed` says, and reports a
    change exactly when it was given one or a node was named by a keyword. -/
theorem legalizeNodes_spec : ∀ {changed : Bool} {u : σ} {nodes : List String} {c : Bool} {u' : σ}
    {nodes' : List String}, legalizeNodes uniquify keywords changed u nodes = .ok (c, u', nodes') →
    List.Forall₂ (Renamed keywords) nodes nodes' ∧ c = (changed || nodes.any (· ∈ keywords))
  | _, _, [], _, _, _, h => by cases h; simp
  | changed, u, oldName :: nodes, c, u', nodes', h => by
    unfold legalizeNodes at h
    split at h
    · rename_i hk
      obtain ⟨⟨c₁, u₁, names⟩, hrest, h⟩ := except_bind_eq_ok.1 h
      cases h
      obtain ⟨hnames, rfl⟩ := legalizeNodes_spec hrest
      exact ⟨.cons ⟨hk, fun _ => rfl, fun h => absurd h hk⟩ hnames, by simp [hk]⟩
    · rename_i hk
      generalize uniquify u oldName = p at h
      obtain ⟨name, u₁⟩ := p
      dsimp only at h
      split at h
      · cases h
      split at h
      · cases h
      rename_i hne hnk
      obtain ⟨⟨c₁, u₂, names⟩, hrest, h⟩ := except_bind_eq_ok.1 h
      cases h
      obtain ⟨hnames, rfl⟩ := legalizeNodes_spec hrest
      exact ⟨.cons ⟨hnk, fun h => absurd h hk, fun _ => hne⟩ hnames, by simp [not_not.1 hk]⟩

/-- `LegalizeNames` succeeds only on a module and ports named by no keyword,
    leaves the block as `Legalized` says, and reports a change exactly when a
    node was named by a keyword. -/
theorem legalizeNames_spec {block block' : Block σ} {useSystemVerilog changed : Bool}
    (h : legalizeNames uniquify block useSystemVerilog = .ok (changed, block')) :
    Legalized (keywordsFor useSystemVerilog) block block' ∧
      changed = block.nodes.any (· ∈ keywordsFor useSystemVerilog) := by
  unfold legalizeNames at h
  dsimp only at h
  split at h
  · cases h
  rename_i hname
  split at h
  · cases h
  rename_i hports
  obtain ⟨⟨c, u, nodes⟩, hnodes, h⟩ := except_bind_eq_ok.1 h
  cases h
  obtain ⟨hnames, rfl⟩ := legalizeNodes_spec hnodes
  exact ⟨⟨hname, fun p hp => by simpa using List.find?_eq_none.1 hports p hp, rfl, rfl, hnames⟩, by simp⟩

/-- The pass legalizes every block of the package, whatever names the uniquer
    gives: the module and port names were no keywords and are kept, no node is
    named by a keyword any more, a node that was not keeps its name, and the
    pass reports a change exactly when it was given one or some node of some
    block was named by a keyword. -/
theorem runInternal_legalized {useSystemVerilog : Bool} : ∀ {changed : Bool} {blocks blocks' : List (Block σ)}
    {changed' : Bool}, runInternal uniquify useSystemVerilog changed blocks = .ok (changed', blocks') →
    List.Forall₂ (Legalized (keywordsFor useSystemVerilog)) blocks blocks' ∧
      changed' = (changed || blocks.any fun b => b.nodes.any (· ∈ keywordsFor useSystemVerilog))
  | _, [], _, _, h => by cases h; simp
  | changed, block :: blocks, _, _, h => by
    obtain ⟨⟨c, block'⟩, hblock, h⟩ := except_bind_eq_ok.1 h
    obtain ⟨⟨c', blocks'⟩, hblocks, h⟩ := except_bind_eq_ok.1 h
    cases h
    obtain ⟨hb, rfl⟩ := legalizeNames_spec hblock
    obtain ⟨hbs, rfl⟩ := runInternal_legalized hblocks
    exact ⟨.cons hb hbs, by simp [Bool.or_assoc]⟩

/-- A uniquer that numbers the names it gives, from its count. -/
def countingUniquify (n : Nat) (old : String) : String × Nat := (old ++ "__" ++ toString n, n + 1)

/-- A block `adder` with ports `a`, `b`, `out` and a node named `and`. -/
def adder : Block Nat := ⟨"adder", ["a", "b", "out"], ["a", "b", "and", "out"], 0⟩

/-- The pass renames the node `and` of `adder` (a Verilog keyword) to `and__0`. -/
theorem runInternal_legalized_adder :
    runInternal countingUniquify false false [adder] =
        .ok (true, [⟨"adder", ["a", "b", "out"], ["a", "b", "and__0", "out"], 1⟩]) ∧
      List.Forall₂ (Legalized (keywordsFor false)) [adder]
        [⟨"adder", ["a", "b", "out"], ["a", "b", "and__0", "out"], 1⟩] :=
  have h : runInternal countingUniquify false false [adder] =
      .ok (true, [⟨"adder", ["a", "b", "out"], ["a", "b", "and__0", "out"], 1⟩]) := rfl
  ⟨h, (runInternal_legalized h).1⟩

/-! ## The names the uniquer gives -/

set_option maxRecDepth 4000 in
/-- No keyword has two underscores in a row. -/
theorem not_infix_of_mem_systemVerilogKeywords : ∀ k ∈ systemVerilogKeywords, ¬ ['_', '_'] <:+: k.toList := by
  decide

theorem not_infix_of_mem_keywordsFor {useSystemVerilog : Bool} {k : String} (hk : k ∈ keywordsFor useSystemVerilog) :
    ¬ ['_', '_'] <:+: k.toList := by
  cases useSystemVerilog
  · exact not_infix_of_mem_systemVerilogKeywords k (List.mem_append_right _ hk)
  · exact not_infix_of_mem_systemVerilogKeywords k hk

section Suffix

/- The block's name uniquer names a node by its old name, `__` and a count. -/
variable (hsuffix : ∀ u old, ∃ s, (uniquify u old).1 = old ++ "__" ++ s)
include hsuffix

/-- The name the uniquer gives a keyword is another name, and no keyword. -/
theorem uniquify_renamed (useSystemVerilog : Bool) (u : σ) (old : String) :
    (uniquify u old).1 ≠ old ∧ (uniquify u old).1 ∉ keywordsFor useSystemVerilog := by
  obtain ⟨s, hs⟩ := hsuffix u old
  rw [hs]
  refine ⟨fun h => ?_, fun h => not_infix_of_mem_keywordsFor h ⟨old.toList, s.toList, by simp⟩⟩
  have := congrArg String.length h
  simp only [String.length_append] at this
  have : "__".length = 2 := rfl
  omega

/-- So the loop over the nodes never fails. -/
theorem legalizeNodes_ok (useSystemVerilog : Bool) : ∀ (changed : Bool) (u : σ) (nodes : List String),
    ∃ r, legalizeNodes uniquify (keywordsFor useSystemVerilog) changed u nodes = .ok r
  | _, _, [] => ⟨_, rfl⟩
  | changed, u, oldName :: nodes => by
    unfold legalizeNodes
    split
    · obtain ⟨⟨c, u', names⟩, hr⟩ := legalizeNodes_ok useSystemVerilog changed u nodes
      exact ⟨_, by rw [hr]; rfl⟩
    · obtain ⟨hne, hnk⟩ := uniquify_renamed hsuffix useSystemVerilog u oldName
      generalize uniquify u oldName = p at hne hnk
      obtain ⟨name, u₁⟩ := p
      obtain ⟨⟨c, u', names⟩, hr⟩ := legalizeNodes_ok useSystemVerilog true u₁ nodes
      exact ⟨_, by simp only [if_neg hne, if_neg hnk, hr]; rfl⟩

/-- With the uniquer's names the renaming's `RET_CHECK`s never fire:
    `LegalizeNames` fails exactly on a module or a port named by a keyword. -/
theorem legalizeNames_ok_iff {block : Block σ} {useSystemVerilog : Bool} :
    (∃ r, legalizeNames uniquify block useSystemVerilog = .ok r) ↔
      block.name ∉ keywordsFor useSystemVerilog ∧ ∀ p ∈ block.ports, p ∉ keywordsFor useSystemVerilog := by
  refine ⟨fun ⟨⟨_, _⟩, h⟩ => ⟨(legalizeNames_spec h).1.name_not_keyword,
    (legalizeNames_spec h).1.ports_not_keyword⟩, fun ⟨hname, hports⟩ => ?_⟩
  have hfind : block.ports.find? (· ∈ keywordsFor useSystemVerilog) = none :=
    List.find?_eq_none.2 fun p hp => by simpa using hports p hp
  obtain ⟨⟨c, u, nodes⟩, hr⟩ := legalizeNodes_ok hsuffix useSystemVerilog false block.uniquer block.nodes
  exact ⟨_, by simp only [legalizeNames, if_neg hname, hfind, hr]; rfl⟩

end Suffix

/-- `adder`, whose module and port names are no keywords, is legalized. -/
theorem legalizeNames_ok_iff_adder :
    (∃ r, legalizeNames countingUniquify adder false = .ok r) ↔
      adder.name ∉ keywordsFor false ∧ ∀ p ∈ adder.ports, p ∉ keywordsFor false :=
  legalizeNames_ok_iff fun u _ => ⟨toString u, rfl⟩

end Spec

end Xls.Codegen
