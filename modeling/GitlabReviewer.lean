import GitlabReviewer.Lifecycle.Agreement
import GitlabReviewer.Queue.Refinement
import GitlabReviewer.Reviews.Restart
import GitlabReviewer.Reviews.StoredSecrets
import GitlabReviewer.Reviews.Postback
import GitlabReviewer.Concurrency.Cap
import GitlabReviewer.Libraries.Isolation
import GitlabReviewer.Database.Boot
import GitlabReviewer.Streaming.Deadline
import GitlabReviewer.Results.Extract
import GitlabReviewer.Results.Schema
import GitlabReviewer.Orchestrator.LibraryPaths
import GitlabReviewer.Queue.Acceptance
import GitlabReviewer.Queue.Overlaps
import GitlabReviewer.Libraries.Collisions
import GitlabReviewer.Settings.References
import GitlabReviewer.Gitlab.Failures
import GitlabReviewer.Entrypoint.Output
import GitlabReviewer.Entrypoint.Capture
import GitlabReviewer.Entrypoint.Ending
import GitlabReviewer.Orchestrator.Purge
import GitlabReviewer.Pipeline.Handover
import GitlabReviewer.Streaming.Lossless
import GitlabReviewer.Results.Exact
import GitlabReviewer.Orchestrator.Stopping
import GitlabReviewer.Scheduler.Jobs
import GitlabReviewer.Secrets.Values
import GitlabReviewer.Listing.Pages
import GitlabReviewer.Live.Archive
import GitlabReviewer.Live.Posted
import GitlabReviewer.Results.ReadBack
import GitlabReviewer.Access.Guard
import GitlabReviewer.Live.Orders
import GitlabReviewer.Pipeline.Libraries
import GitlabReviewer.Settings.ProfilePage
