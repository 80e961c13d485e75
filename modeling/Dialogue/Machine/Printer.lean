import Dialogue.Machine.Signal
import Dialogue.Script.Printer

/-!
# Descriptions of the machine

The text that shows a phase, a status or an effect to a reader.
-/

namespace Dialogue

open Text

def Status.describe : Status → String
  | .active => "Active"
  | .waiting => "Waiting"
  | .completed => "Completed"

def Speaker.describe : Speaker → String
  | .bot => "Bot"
  | .user => "User"

def Phase.describe : Phase → String
  | .running => "Running"
  | .resolvingText => "ResolvingText"
  | .settling => "Settling"
  | .evaluatingCondition => "EvaluatingCondition"
  | .awaitingInput => "AwaitingInput"
  | .validating text => describeRecord "Validating" [("text", quote text)] false
  | .completed => "Completed"

def Effect.describe {κ : Type} : Effect κ → String
  | .resolveText wording =>
    describeRecord "ResolveText" [("text", describeOption (wording.map Wording.describe))] false
  | .appendMessage speaker text =>
    describeRecord "AppendMessage" [("sender", speaker.describe), ("text", quote text)] false
  | .settleOutput wait complete =>
    describeRecord "SettleOutput"
      [("wait", wait.render), ("hook", describeBool complete.isSome)] false
  | .evaluateCondition _ => "EvaluateCondition"
  | .validate rules text =>
    describeRecord "Validate" [("rules", toString rules.length), ("text", quote text)] false
  | .storeAnswer name value =>
    describeRecord "StoreAnswer" [("name", quote name), ("value", quote value)] false
  | .runHook _ step => describeRecord "RunHook" [("step", quote step)] false
  | .runFormHook => "RunFormHook"
  | .publishStatus status => describeRecord "PublishStatus" [("status", status.describe)] false

end Dialogue
