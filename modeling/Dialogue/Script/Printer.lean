import Dialogue.Script.Basic
import Dialogue.Text.Quoted

/-!
# Descriptions of scripts

The text that shows a script to a reader. Callbacks are not shown: a computed wording only says
that it is one, a block leaves out its condition, and a step that its description is not complete.
-/

namespace Dialogue

open Text

variable {κ : Type}

def Wording.describe : Wording κ → String
  | .literal text => describeWrapped "Literal" (quote text)
  | .computed _ => "Computed(..)"

def Output.describe (o : Output κ) : String :=
  describeRecord "Output"
    [("text", describeOption (o.wording.map Wording.describe)), ("wait", o.wait.render)] true

def Input.describe (i : Input κ) : String :=
  describeRecord "Input"
    [("kind", "Text"), ("name", quote i.name), ("rules", toString i.rules.length)] true

def BlockKind.title : BlockKind → String
  | .branch => "If"
  | .loop => "While"

mutual

def Step.describe : Step κ → String
  | .output o => o.describe
  | .input i => i.describe
  | .block kind _ children _ =>
    describeRecord kind.title [("children", describeList (describeSteps children))] true

def describeSteps : List (Step κ) → List String
  | [] => []
  | step :: steps => step.describe :: describeSteps steps

end

def Script.describe (script : Script κ) : String :=
  describeRecord "Script"
    [("steps", describeList (describeSteps script.steps)),
     ("complete", describeBool script.complete.isSome)] false

end Dialogue
