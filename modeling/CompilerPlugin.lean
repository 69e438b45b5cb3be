import CompilerPlugin.Main
import CompilerPlugin.Proofs.Descriptor.FieldNumbers
import CompilerPlugin.Proofs.Descriptor.Formed
import CompilerPlugin.Proofs.Descriptor.Locations
import CompilerPlugin.Proofs.Descriptor.Sharing
import CompilerPlugin.Proofs.Descriptor.StripAgreement
import CompilerPlugin.Proofs.Descriptor.StripTwice
import CompilerPlugin.Proofs.Path.Proto
import CompilerPlugin.Proofs.Path.Refused
import CompilerPlugin.Proofs.Plugin.AllOrNothing
import CompilerPlugin.Proofs.Plugin.ExitStatus
import CompilerPlugin.Proofs.Plugin.MessageNames
import CompilerPlugin.Proofs.Plugin.Sources
import CompilerPlugin.Proofs.Request.CompilerVersion
import CompilerPlugin.Proofs.Request.Contract
import CompilerPlugin.Proofs.Request.FirstViolation
import CompilerPlugin.Proofs.Request.Lookup
import CompilerPlugin.Proofs.Request.RoundTrip
import CompilerPlugin.Proofs.Request.Trees
import CompilerPlugin.Proofs.Response.Accounts
import CompilerPlugin.Proofs.Response.Batch
import CompilerPlugin.Proofs.Response.Closed
import CompilerPlugin.Proofs.Response.Continuations
import CompilerPlugin.Proofs.Response.DirectoryNames
import CompilerPlugin.Proofs.Response.Duplicates
import CompilerPlugin.Proofs.Response.Echo
import CompilerPlugin.Proofs.Response.FirstViolation
import CompilerPlugin.Proofs.Response.Folded
import CompilerPlugin.Proofs.Response.Interleaving
import CompilerPlugin.Proofs.Response.Modes
import CompilerPlugin.Proofs.Response.Sequence
