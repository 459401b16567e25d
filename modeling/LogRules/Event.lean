import LogRules.Context
import LogRules.Pipeline

/-!
Events: what an observer is told of a run, step by step.
-/
namespace LogRules

inductive Event
  | startProcessing (id : MessageId)
  | processStreams (id : MessageId) (streams pipelines : List String)
  | enterStage (pipeline : String) (stage : Int) (policy : MatchPolicy)
  | evaluateRule (pipeline rule : String)
  | satisfyRule (pipeline rule : String)
  | dissatisfyRule (pipeline rule : String)
  | failEvaluateRule (pipeline rule : String) (error : EvalError)
  | executeRule (pipeline rule : String)
  | failExecuteRule (pipeline rule : String) (error : EvalError)
  | continuePipeline (pipeline : String) (stage : Int)
  | stopPipeline (pipeline : String) (stage : Int)
  | finishProcessing (id : MessageId) (dropped : Bool)
deriving DecidableEq, Inhabited

inductive EventKind
  | startProcessing
  | processStreams
  | enterStage
  | evaluateRule
  | satisfyRule
  | dissatisfyRule
  | failEvaluateRule
  | executeRule
  | failExecuteRule
  | continuePipeline
  | stopPipeline
  | finishProcessing
deriving DecidableEq, Inhabited, Repr

def EventKind.name : EventKind → String
  | startProcessing => "StartProcessing"
  | processStreams => "ProcessStreams"
  | enterStage => "EnterStage"
  | evaluateRule => "EvaluateRule"
  | satisfyRule => "SatisfyRule"
  | dissatisfyRule => "DissatisfyRule"
  | failEvaluateRule => "FailEvaluateRule"
  | executeRule => "ExecuteRule"
  | failExecuteRule => "FailExecuteRule"
  | continuePipeline => "ContinuePipelineExecution"
  | stopPipeline => "StopPipelineExecution"
  | finishProcessing => "FinishProcessing"

namespace Event

def kind : Event → EventKind
  | startProcessing _ => .startProcessing
  | processStreams _ _ _ => .processStreams
  | enterStage _ _ _ => .enterStage
  | evaluateRule _ _ => .evaluateRule
  | satisfyRule _ _ => .satisfyRule
  | dissatisfyRule _ _ => .dissatisfyRule
  | failEvaluateRule _ _ _ => .failEvaluateRule
  | executeRule _ _ => .executeRule
  | failExecuteRule _ _ _ => .failExecuteRule
  | continuePipeline _ _ => .continuePipeline
  | stopPipeline _ _ => .stopPipeline
  | finishProcessing _ _ => .finishProcessing

def rule? : Event → Option String
  | evaluateRule _ rule | satisfyRule _ rule | dissatisfyRule _ rule | failEvaluateRule _ rule _
  | executeRule _ rule | failExecuteRule _ rule _ => some rule
  | _ => none

def pipeline? : Event → Option String
  | enterStage pipeline _ _ | evaluateRule pipeline _ | satisfyRule pipeline _
  | dissatisfyRule pipeline _ | failEvaluateRule pipeline _ _ | executeRule pipeline _
  | failExecuteRule pipeline _ _ | continuePipeline pipeline _ | stopPipeline pipeline _ =>
    some pipeline
  | _ => none

def stage? : Event → Option Int
  | enterStage _ stage _ | continuePipeline _ stage | stopPipeline _ stage => some stage
  | _ => none

def text : Event → String
  | startProcessing id => s!"Starting message processing of message {id.text}"
  | processStreams _ streams pipelines =>
    "Message is in streams [" ++ ", ".intercalate streams ++ "], running pipelines [" ++
      ", ".intercalate pipelines ++ "]"
  | enterStage pipeline stage policy =>
    s!"Enter Stage {stage} (match {policy.name}) of Pipeline '{pipeline}'"
  | evaluateRule pipeline rule => s!"Evaluate Rule '{rule}' in Pipeline '{pipeline}'"
  | satisfyRule pipeline rule =>
    s!"Evaluation satisfied Rule '{rule}' in Pipeline '{pipeline}'"
  | dissatisfyRule pipeline rule =>
    s!"Evaluation not satisfied Rule '{rule}' in Pipeline '{pipeline}'"
  | failEvaluateRule pipeline rule error =>
    s!"Error evaluating condition of Rule '{rule}' in Pipeline '{pipeline}': {error.message}"
  | executeRule pipeline rule => s!"Execute Rule '{rule}' in Pipeline '{pipeline}'"
  | failExecuteRule pipeline rule error =>
    s!"Error executing Rule '{rule}' in Pipeline '{pipeline}': {error.message}"
  | continuePipeline pipeline stage =>
    s!"Completed Stage {stage} for Pipeline '{pipeline}', continuing to next Stage"
  | stopPipeline pipeline stage =>
    s!"Completed Stage {stage} for Pipeline '{pipeline}', NOT continuing to next Stage"
  | finishProcessing id dropped =>
    s!"Finished message processing of message {id.text}" ++ (if dropped then " (dropped)" else "")

end Event

end LogRules
