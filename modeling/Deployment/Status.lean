import Deployment.Text

/-!
# Deployment statuses

How far the deployment of an instance has come. A status is written in capitals with
underscores; when it is read, the case of its letters does not matter, and hyphens and
spaces stand for underscores.
-/

namespace Deployment

/-- How far the deployment of an instance has come. -/
inductive Status where
  | notDeployed
  | deploying
  | deployedStarted
  | deployedStopped
  | starting
  | stopping
  | undeploying
  | problem
  | unresolved
  | waitingForAncestor
deriving DecidableEq, Inhabited

namespace Status

/-- Every status. -/
def all : List Status :=
  [.notDeployed, .deploying, .deployedStarted, .deployedStopped, .starting, .stopping,
    .undeploying, .problem, .unresolved, .waitingForAncestor]

/-- The written form. -/
def name : Status → String
  | .notDeployed => "NOT_DEPLOYED"
  | .deploying => "DEPLOYING"
  | .deployedStarted => "DEPLOYED_STARTED"
  | .deployedStopped => "DEPLOYED_STOPPED"
  | .starting => "STARTING"
  | .stopping => "STOPPING"
  | .undeploying => "UNDEPLOYING"
  | .problem => "PROBLEM"
  | .unresolved => "UNRESOLVED"
  | .waitingForAncestor => "WAITING_FOR_ANCESTOR"

/-- The spelling of a status in documents. -/
def key : Status → String
  | .notDeployed => "NotDeployed"
  | .deploying => "Deploying"
  | .deployedStarted => "DeployedStarted"
  | .deployedStopped => "DeployedStopped"
  | .starting => "Starting"
  | .stopping => "Stopping"
  | .undeploying => "Undeploying"
  | .problem => "Problem"
  | .unresolved => "Unresolved"
  | .waitingForAncestor => "WaitingForAncestor"

/-- A letter in its capital form, a separator as an underscore. -/
def canonicalChar (c : Char) : Char := if c = '-' ∨ c = ' ' then '_' else c.toUpper

/-- The status with a given written form. -/
def parse (s : String) : Option Status :=
  let canonical := (Chars.trim s.toList).map canonicalChar
  all.find? fun status => status.name.toList = canonical

end Status

end Deployment
