import TrainingPlatform.Runs
import TrainingPlatform.Framing
import TrainingPlatform.Go.Strings
import TrainingPlatform.Go.Utf8
import TrainingPlatform.Go.Json
import TrainingPlatform.Go.Lines
import TrainingPlatform.Go.Text
import TrainingPlatform.Go.Scan
import TrainingPlatform.Go.Template
import TrainingPlatform.Go.Decimal
import TrainingPlatform.Go.Regexp
import TrainingPlatform.Go.Matching
import TrainingPlatform.Go.Letters
import TrainingPlatform.Go.Path
import TrainingPlatform.Go.Url
import TrainingPlatform.Go.Reference
import TrainingPlatform.Go.Base64
import TrainingPlatform.Go.Results
import TrainingPlatform.Go.Collections
import TrainingPlatform.Scoring.Hash
import TrainingPlatform.Scoring.Store
import TrainingPlatform.Scoring.Phash
import TrainingPlatform.Scoring.Load
import TrainingPlatform.Scoring.Dhash
import TrainingPlatform.Scoring.Grid
import TrainingPlatform.Scoring.Capture
import TrainingPlatform.Scoring.Http
import TrainingPlatform.Scoring.Journal
import TrainingPlatform.Scoring.Process
import TrainingPlatform.Scoring.History
import TrainingPlatform.Scoring.Standings
import TrainingPlatform.Scoring.Ordering
import TrainingPlatform.Scoring.Durability
import TrainingPlatform.Scoring.Acknowledge
import TrainingPlatform.Auth.Identity
import TrainingPlatform.Auth.Signatures
import TrainingPlatform.Auth.Browser
import TrainingPlatform.Session.Engine
import TrainingPlatform.Session.Deadlines
import TrainingPlatform.Session.Keepalive
import TrainingPlatform.Session.Boot
import TrainingPlatform.Terminal.Stream
import TrainingPlatform.Dockershim.K8s
import TrainingPlatform.Dockershim.Server
import TrainingPlatform.Dockershim.Argv
import TrainingPlatform.Dockershim.Exec
import TrainingPlatform.Dockershim.Logs
import TrainingPlatform.Dockershim.PodNames
import TrainingPlatform.Dockershim.Answers
import TrainingPlatform.Dockershim.Running
import TrainingPlatform.Dockershim.Tables
import TrainingPlatform.Dockershim.Removal
import TrainingPlatform.Server.Platform
import TrainingPlatform.Server.Ownership
import TrainingPlatform.Server.Frame
import TrainingPlatform.Router.Host
import TrainingPlatform.Router.Link
import TrainingPlatform.Content.Blocks
import TrainingPlatform.Content.Markdown
import TrainingPlatform.Content.Patterns
import TrainingPlatform.Content.Render
import TrainingPlatform.Content.Marks
import TrainingPlatform.Content.Remark
import TrainingPlatform.Content.SamePage
import TrainingPlatform.Content.Registered
import TrainingPlatform.Content.Page
import TrainingPlatform.Content.Tags
import TrainingPlatform.Content.SameBody
import TrainingPlatform.Content.Placeholders
import TrainingPlatform.Content.BlockHtml
import TrainingPlatform.Content.Placed
import TrainingPlatform.Content.Dom
import TrainingPlatform.Content.TermRefs
import TrainingPlatform.Content.DemoLinks
import TrainingPlatform.Content.PortLinks
import TrainingPlatform.Content.Solvable
import TrainingPlatform.Content.Fences
import TrainingPlatform.Html.Tags
import TrainingPlatform.Content.Markup
import TrainingPlatform.Content.CodeSpans
import TrainingPlatform.Content.LinkLetters
import TrainingPlatform.Content.KeptSpans
import TrainingPlatform.Content.Buttons
import TrainingPlatform.Content.Agreement
import TrainingPlatform.Server.DemoTarget
import TrainingPlatform.Server.DemoButton
import TrainingPlatform.Content.Build
import TrainingPlatform.Content.Site
import TrainingPlatform.Content.Console
import TrainingPlatform.Content.Sockets
import TrainingPlatform.Content.Grading
import TrainingPlatform.Lessons.Handler
import TrainingPlatform.Lessons.Disclosure
import TrainingPlatform.Lessons.Navigation
