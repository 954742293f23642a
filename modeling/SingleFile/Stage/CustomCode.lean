import SingleFile.Assembly
import SingleFile.Stage.Context

/-!
# The code of custom blocks

The custom blocks of one kind are handed to the transformer for that kind at once.  The kinds come in
the order in which they first appear; those without a transformer are left out.
-/

namespace SingleFile.Stage

def addToKind (block : CustomBlock) :
    List (String × List CustomBlock) → List (String × List CustomBlock)
  | [] => [(block.kind, [block])]
  | (kind, blocks) :: rest =>
    if kind = block.kind then (kind, blocks ++ [block]) :: rest
    else (kind, blocks) :: addToKind block rest

def byKind (blocks : List CustomBlock) : List (String × List CustomBlock) :=
  blocks.foldl (fun groups b => addToKind b groups) []

def kindCode (cx : Context κ) (kind : String) (blocks : List CustomBlock) :
    Action κ (Option String) := do
  match cx.registry.find? kind with
  | none =>
    Routine.log
      ⟨.debug, "no transformer for custom block", [("file", cx.file), ("block_type", kind)]⟩
    return none
  | some t =>
    return some (← cx.process t (.customBlocks blocks optionsName cx.file cx.settings)).code

def customCode (cx : Context κ) (blocks : List CustomBlock) : Action κ (Option String) := do
  let codes ← Routine.inTurn ((byKind blocks).map fun g => kindCode cx g.1 g.2)
  match codes.filterMap id with
  | [] => return none
  | made => return some ("\n".intercalate made)

end SingleFile.Stage
