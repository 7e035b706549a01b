import TimedInput.Text.Bytes
import TimedInput.Text.Console
import TimedInput.Text.Numeral
import TimedInput.Text.Utf8
import TimedInput.Text.Utf16
import TimedInput.Number.Rounding
import TimedInput.Number.Places
import TimedInput.Time.Instant
import TimedInput.Time.Stopwatch
import TimedInput.Script.Platform
import TimedInput.Script.Key
import TimedInput.Script.Action
import TimedInput.Script.Timestamp
import TimedInput.Script.Diagnostic
import TimedInput.Script.Comment
import TimedInput.Script.SourceLine
import TimedInput.Script.Clause
import TimedInput.Script.Timeline
import TimedInput.Script.Compilation
import TimedInput.Playback.Point
import TimedInput.Playback.Call
import TimedInput.Playback.InputState
import TimedInput.Playback.Backend
import TimedInput.Playback.Glide
import TimedInput.Playback.Run
import TimedInput.Playback.Player
import TimedInput.Playback.Session
import TimedInput.Backend.Printer
import TimedInput.Backend.Desktop
import TimedInput.Backend.Rehearsal
import TimedInput.Playback.Supervision
import TimedInput.Sharing.Pool
import TimedInput.CommandLine
import TimedInput.Selftest.Trial
import TimedInput.Selftest.TextCases
import TimedInput.Selftest.ScriptCases
import TimedInput.Selftest.PlaybackCases
import TimedInput.Selftest.Suite
import TimedInput.Main
import TimedInput.Proofs.Text.Splitting
import TimedInput.Proofs.Text.Trimming
import TimedInput.Proofs.Text.Decimal
import TimedInput.Proofs.Text.Sequences
import TimedInput.Proofs.Text.CodeUnits
import TimedInput.Proofs.Text.Strictness
import TimedInput.Proofs.Script.Comments
import TimedInput.Proofs.Script.Grammar
import TimedInput.Proofs.Script.Rendering
import TimedInput.Proofs.Script.RoundTrip
import TimedInput.Proofs.Script.Chronology
import TimedInput.Proofs.Script.Blanking
import TimedInput.Proofs.Script.Uncommented
import TimedInput.Proofs.Script.Verdicts
import TimedInput.Proofs.Script.Scanner
import TimedInput.Proofs.Script.Acceptance
import TimedInput.Proofs.Script.Reports
import TimedInput.Proofs.Playback.Switch
import TimedInput.Proofs.Playback.Log
import TimedInput.Proofs.Playback.Schedule
import TimedInput.Proofs.Playback.Pace
import TimedInput.Proofs.Playback.Phase
import TimedInput.Proofs.Playback.HeldInput
import TimedInput.Proofs.Playback.Footprint
import TimedInput.Proofs.Playback.Outline
import TimedInput.Proofs.Playback.Undisturbed
import TimedInput.Proofs.Playback.Failure
import TimedInput.Proofs.Playback.Cancellation
import TimedInput.Proofs.Playback.Lifecycle
import TimedInput.Proofs.Backend.Contacts
import TimedInput.Proofs.Backend.DesktopPlayback
import TimedInput.Proofs.Backend.Transcription
import TimedInput.Proofs.Script.Portability
import TimedInput.Proofs.Sharing.Counts
import TimedInput.Proofs.Sharing.Lifetimes
import TimedInput.Proofs.Playback.Chronicle
import TimedInput.Proofs.Playback.Observation
import TimedInput.Proofs.Playback.Course
import TimedInput.Proofs.Playback.Reasons
import TimedInput.Proofs.Playback.Redundancy
import TimedInput.Proofs.Backend.DryRun
import TimedInput.Proofs.Backend.Paper
import TimedInput.Proofs.CommandLine.Interrupt
import TimedInput.Proofs.CommandLine.Arguments
import TimedInput.Proofs.CommandLine.Validation
import TimedInput.Proofs.Script.Resolution
import TimedInput.Proofs.Script.Isolation
import TimedInput.Proofs.Script.Payloads
import TimedInput.Proofs.Playback.Progress
import TimedInput.Proofs.Playback.Glides
import TimedInput.Proofs.Playback.Retiming
import TimedInput.Proofs.Playback.Punctuality
import TimedInput.Proofs.Script.Positions
import TimedInput.Proofs.Backend.Typing
import TimedInput.Proofs.Playback.Ticks
import TimedInput.Proofs.Playback.Announcements
import TimedInput.Proofs.Script.Timestamps
import TimedInput.Proofs.Script.Descriptions
import TimedInput.Proofs.Backend.Scaling
import TimedInput.Proofs.Backend.Whereabouts
import TimedInput.Proofs.Playback.Interpolation
import TimedInput.Proofs.Script.Pieces
